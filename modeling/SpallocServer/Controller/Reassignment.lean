import Mathlib.Data.List.DropRight
import SpallocServer.Controller.Counter
import SpallocServer.Controller.Hosting

namespace SpallocServer.Controller

open Foundation Prog JobQueue Allocator

variable {q q' : JobQueue} {c c' : Controller} {t t' t₀ : JobQueue × Controller} {id j m k : ℕ}
  {depth : ℤ} {name : String} {machines : Machines} {gone : List (ℕ × Option String)}
  {reason : Option String}

theorem rtake_suffix {α : Type} (l : List α) {n n' : ℕ} (h : n ≤ n') : l.rtake n <:+ l.rtake n' := by
  unfold List.rtake
  have hdrop : l.length - n = l.length - n' + (l.length - n - (l.length - n')) := by omega
  rw [hdrop, ← List.drop_drop]
  exact List.drop_suffix _ _

theorem recent_retain {d : Dict ℕ (Option String)} {n : ℤ}
    (h : gone.rtake n.toNat <:+ d.entries) (hnew : d.get? id = none) :
    (gone ++ [(id, reason)]).rtake n.toNat <:+ (retain n (d.set id reason)).entries := by
  have hset : (d.set id reason).entries = d.entries ++ [(id, reason)] :=
    Dict.put_eq_append (Dict.get?_eq_none.mp hnew)
  cases hn : n.toNat with
  | zero =>
    rw [List.rtake_zero]
    exact List.nil_suffix
  | succ k =>
    rw [hn] at h
    rw [List.rtake_concat_succ]
    have hsuffix : gone.rtake k ++ [(id, reason)] <:+ (d.set id reason).entries := by
      rw [hset, List.suffix_append_inj_of_length_eq rfl]
      exact ⟨(rtake_suffix gone (Nat.le_succ k)).trans h, rfl⟩
    unfold retain
    split
    · next hlong =>
      change _ <:+ (d.set id reason).entries.tail
      have hshort : (gone.rtake k ++ [(id, reason)]).length ≤ k + 1 := by
        simp only [List.rtake, List.length_append, List.length_drop, List.length_singleton]
        omega
      generalize (d.set id reason).entries = entries at hsuffix hlong
      cases entries with
      | nil =>
        rw [List.length_nil] at hlong
        omega
      | cons p rest =>
        obtain heq | hrest := List.suffix_cons_iff.mp hsuffix
        · rw [heq] at hshort
          omega
        · exact hrest
    · exact hsuffix

/-- Since `t₀` some jobs are `gone`, in this order. Those that had been told their boards were on
machines that are not kept, and the others are as they were. -/
structure Framed (machines : Machines) (t₀ t : JobQueue × Controller)
    (gone : List (ℕ × Option String)) : Prop where
  limit : t.2.maxRetiredJobs = t₀.2.maxRetiredJobs
  recent : gone.rtake t₀.2.maxRetiredJobs.toNat <:+ t.2.retiredJobs.entries
  nodup : (gone.map Prod.fst).Nodup
  left : ∀ id, id ∈ t.2.jobs ↔ id ∈ t₀.2.jobs ∧ id ∉ gone.map Prod.fst
  known : ∀ id ∈ gone.map Prod.fst, id ∈ t₀.2.jobs
  swept : ∀ id reason machine, (id, reason) ∈ gone →
    (t₀.2.job id).allocatedMachine = some machine → reason = some "Machine removed." ∧
      ∀ new, machines.dict.get? machine.name = some new → ¬machine.Alike new
  kept : ∀ id ∈ t.2.jobs, ∀ machine, (t₀.2.job id).allocatedMachine = some machine →
    t.2.job id = t₀.2.job id ∧ ∃ j, t₀.1.jobs.get? id = some j ∧ t.1.jobs.get? id = some j ∧
      t.1.job j = t₀.1.job j ∧ (t.1.job j).pending = false

namespace Framed

theorem start (hr : Roster depth t₀) (h : Hosting t₀) (p : ℤ) :
    Framed machines t₀ ({ t₀.1 with postpone := p }, t₀.2) [] where
  limit := rfl
  recent := by
    rw [List.rtake_nil]
    exact List.nil_suffix
  nodup := List.nodup_nil
  left id := by simp
  known id hid := absurd hid List.not_mem_nil
  swept _ _ _ hin := absurd hin List.not_mem_nil
  kept id hid machine hmachine := by
    obtain ⟨j, m, _, hj, hm, -⟩ := h.hosted id hid machine hmachine
    refine ⟨rfl, j, hj, hj, rfl, ?_⟩
    by_contra hp
    have hnone := (hr.linked.unplaced j (by simpa using hp)).1
    rw [hm] at hnone
    cases hnone

theorem congr (h : Framed machines t₀ (q, c) gone) (hjobs : q'.jobs = q.jobs)
    (hjob : q'.job = q.job) (hlimit : c'.maxRetiredJobs = c.maxRetiredJobs)
    (hretired : c'.retiredJobs = c.retiredJobs) (hj : c'.jobs = c.jobs) (hjob' : c'.job = c.job) :
    Framed machines t₀ (q', c') gone where
  limit := hlimit.trans h.limit
  recent := by
    dsimp only
    rw [hretired]
    exact h.recent
  nodup := h.nodup
  left id := by
    dsimp only
    rw [hj]
    exact h.left id
  known := h.known
  swept := h.swept
  kept id hid machine hmachine := by
    dsimp only at hid ⊢
    rw [hj] at hid
    rw [hjobs, hjob, hjob']
    exact h.kept id hid machine hmachine

theorem queue (h : Framed machines t₀ (q, c) gone) (hq : ∀ k ∈ c.jobs, ∀ j,
      q.jobs.get? k = some j → (q.job j).pending = false →
      q'.jobs.get? k = some j ∧ q'.job j = q.job j) : Framed machines t₀ (q', c) gone where
  limit := h.limit
  recent := h.recent
  nodup := h.nodup
  left := h.left
  known := h.known
  swept := h.swept
  kept id hid machine hmachine := by
    obtain ⟨hsame, j, hj₀, hj, hjob, hp⟩ := h.kept id hid machine hmachine
    obtain ⟨hj', hjob'⟩ := hq id hid j hj hp
    refine ⟨hsame, j, hj₀, hj', hjob'.trans hjob, ?_⟩
    dsimp only
    rw [hjob']
    exact hp

theorem touched (h : Framed machines t₀ (q, c) gone) (ht : Touches id c c')
    (hnone : ∀ machine, id ∈ c.jobs → (t₀.2.job id).allocatedMachine ≠ some machine) :
    Framed machines t₀ (q, c') gone where
  limit := ht.maxRetiredJobs.trans h.limit
  recent := by
    dsimp only
    rw [ht.retiredJobs]
    exact h.recent
  nodup := h.nodup
  left k := by
    dsimp only
    rw [ht.jobs]
    exact h.left k
  known := h.known
  swept := h.swept
  kept k hk machine hmachine := by
    dsimp only at hk ⊢
    rw [ht.jobs] at hk
    have hne : k ≠ id := fun heq => hnone machine (heq ▸ hk) (heq ▸ hmachine)
    rw [ht.job k hne]
    exact h.kept k hk machine hmachine

theorem retired (h : Framed machines t₀ (q, c) gone) (hr : Roster depth (q, c)) (hid : id ∈ c.jobs)
    (hreason : ∀ machine, (t₀.2.job id).allocatedMachine = some machine →
      reason = some "Machine removed." ∧
        ∀ new, machines.dict.get? machine.name = some new → ¬machine.Alike new)
    (ht : Touches id (c.retired id reason) c') :
    Framed machines t₀ (q, c') (gone ++ [(id, reason)]) where
  limit := ht.maxRetiredJobs.trans h.limit
  recent := by
    have hnew : c.retiredJobs.get? id = none := by
      by_contra hne
      exact hr.gone id (Option.isSome_iff_ne_none.mpr hne) hid
    have hlimit := h.limit
    have hrecent := h.recent
    dsimp only at hlimit hrecent ⊢
    rw [ht.retiredJobs]
    change _ <:+ (retain c.maxRetiredJobs (c.retiredJobs.set id reason)).entries
    rw [hlimit]
    exact recent_retain hrecent hnew
  nodup := by
    rw [List.map_append, List.nodup_append]
    refine ⟨h.nodup, List.nodup_singleton _, fun k hk k' hk' heq => ?_⟩
    rw [heq, List.mem_singleton.mp hk'] at hk
    exact ((h.left id).mp hid).2 hk
  left k := by
    dsimp only
    rw [ht.jobs, mem_retired, List.map_append, List.mem_append, not_or]
    have hl := h.left k
    dsimp only at hl
    rw [hl, and_assoc]
    exact and_congr_right fun _ => and_congr_right fun _ => List.mem_singleton.not.symm
  known k hk := by
    rw [List.map_append, List.mem_append] at hk
    obtain hk | hk := hk
    · exact h.known k hk
    · rw [List.mem_singleton.mp hk]
      exact ((h.left id).mp hid).1
  swept k reason' machine hin hmachine := by
    obtain hin | hin := List.mem_append.mp hin
    · exact h.swept k reason' machine hin hmachine
    · obtain ⟨rfl, rfl⟩ := Prod.mk.inj (List.mem_singleton.mp hin)
      exact hreason machine hmachine
  kept k hk machine hmachine := by
    dsimp only at hk ⊢
    rw [ht.jobs] at hk
    obtain ⟨hk, hne⟩ := mem_retired.mp hk
    rw [ht.job k hne]
    exact h.kept k hk machine hmachine

end Framed

theorem framed_freed (hr : Roster depth (q, c)) (hh : Hosting (q, c))
    (h : Framed machines t₀ (q, c) gone) (hj : q.jobs.get? id = some j)
    (hjm : (q.job j).machine = some m) (hm : q.machines.get? name = some m)
    (hmajor : ∀ old new, c.machines.get? name = some old → machines.dict.get? name = some new →
      compare old new = .major) :
    wp (onFree id (some "Machine removed."))
      (fun _ c' => ∃ gone, Framed machines t₀ (q, c') gone) (fun _ _ => True) c := by
  by_cases hid : id ∈ c.jobs
  · have hlost (machine : Configuration.Machine)
        (hmachine : (t₀.2.job id).allocatedMachine = some machine) :
        some "Machine removed." = some "Machine removed." ∧
          ∀ new, machines.dict.get? machine.name = some new → ¬machine.Alike new := by
      refine ⟨rfl, fun new hnew halike => ?_⟩
      have hsame := (h.kept id hid machine hmachine).1
      dsimp only at hsame
      obtain ⟨i, m', current, hi, him, hq, hcurrent, ha⟩ := hh.hosted id hid machine
        (by dsimp only; rw [hsame]; exact hmachine)
      obtain rfl := Option.some.inj (hj.symm.trans hi)
      obtain rfl := Option.some.inj (hjm.symm.trans him)
      have hname : machine.name = name :=
        (hr.linked.names machine.name m hq).1.symm.trans (hr.linked.names name m hm).1
      rw [hname] at hcurrent hnew
      have hchange := hmajor current new hcurrent hnew
      unfold compare at hchange
      rw [if_pos (ha.symm.trans halike)] at hchange
      split at hchange <;> cases hchange
    apply onFree_retires.mono _ fun _ _ _ => trivial
    intro _ c' ⟨names, ht⟩
    have hnames : Framed machines t₀ (q, { c with changedMachines := names }) gone :=
      h.congr rfl rfl rfl rfl rfl rfl
    exact ⟨_, hnames.retired (hr.tables rfl rfl rfl rfl) hid hlost ht⟩
  · apply onFree_wp
    · exact fun _ => trivial
    · exact fun _ _ => trivial
    · exact fun _ hid' => absurd hid' hid

structure Clearing (machines : Machines) (t₀ : JobQueue × Controller) (name : String) (m : ℕ)
    (t : JobQueue × Controller) : Prop where
  hosting : Hosting t
  queued : t.1.machines.get? name = some m
  major : ∀ old new, t.2.machines.get? name = some old → machines.dict.get? name = some new →
    compare old new = .major
  framed : ∃ gone, Framed machines t₀ t gone

theorem clearing_sweep (machines : Machines) (t₀ : JobQueue × Controller) (name : String) (m : ℕ) :
    SweepRules depth m (Clearing machines t₀ name m) fun _ _ => True where
  freed q c id j hr h hj hp hjm := by
    obtain ⟨gone, hframed⟩ := h.framed
    have hkept : wp (onFree id (some "Machine removed.")) (fun _ c' => c'.machines = c.machines)
        (fun _ _ => True) c :=
      onFree_tables.mono (fun _ _ ht => congrArg Prod.fst ht) fun _ _ _ => trivial
    apply (((hosting_rules.sweep depth m).freed q c id j hr h.hosting hj hp hjm).and
      ((framed_freed hr h.hosting hframed hj hjm h.queued h.major).and hkept)).mono _
        fun _ _ _ => trivial
    intro _ c' ⟨hhosting, hframed', htables⟩
    refine ⟨hhosting, h.queued, ?_, hframed'⟩
    dsimp only
    rw [htables]
    exact h.major
  free q c id j a b hr h hid hj hh hm hrun := by
    obtain ⟨gone, hframed⟩ := h.framed
    refine ⟨(hosting_rules.sweep depth m).free q c id j a b hr h.hosting hid hj hh hm hrun,
      h.queued, h.major, gone, hframed.queue fun k hk i hi _ => ⟨?_, rfl⟩⟩
    have hne : id ≠ k := fun heq => hid (heq ▸ hk)
    exact (Dict.get?_erase_ne _ hne).trans hi

theorem removeMachine_framed (hr : Roster 1 (q, c)) (hh : Hosting (q, c))
    (h : Framed machines t₀ (q, c) gone)
    (hmajor : ∀ old new, c.machines.get? name = some old → machines.dict.get? name = some new →
      compare old new = .major) :
    wp (JobQueue.removeMachine callbacks name) (fun _ t' => ∃ gone, Framed machines t₀ t' gone)
      (fun _ _ => True) (q, c) := by
  apply SweepRules.removeMachine (clearing_sweep machines t₀ name) hr
    Int.one_pos
  · exact fun m hm => ⟨hosting_rules.view _ _ hh (sameView_postponed q c 2), hm, hmajor, gone,
      h.congr rfl rfl rfl rfl rfl rfl⟩
  · exact fun _ => trivial
  · intro m q' c' _ _ hK _ _ _
    obtain ⟨gone', hf⟩ := hK.framed
    exact ⟨gone', hf.congr rfl rfl rfl rfl rfl rfl⟩
  · exact fun _ _ _ _ _ => trivial

/-- The jobs that are there, and those that have been there since `t₀`. -/
def Following (machines : Machines) (t₀ : JobQueue × Controller) (depth : ℤ)
    (t : JobQueue × Controller) : Prop :=
  (Roster depth t ∧ Hosting t) ∧ ∃ gone, Framed machines t₀ t gone

theorem following_assign (machines : Machines) (t₀ : JobQueue × Controller) :
    AssignRules machines (fun _ => Following machines t₀ 1) fun _ _ => True where
  postponed _ t h := h.1.1.postpone.symm ▸ Int.one_pos
  remove l name t h hmajor := by
    obtain ⟨q, c⟩ := t
    obtain ⟨hs, gone, hframed⟩ := h
    have hassign := hosting_rules.assign machines fun _ _ _ => trivial
    apply ((hassign.remove l name (q, c) hs hmajor).and
      (removeMachine_framed hs.1 hs.2 hframed hmajor)).mono _ fun _ _ _ => trivial
    intro _ t' ⟨⟨_, _, hJ⟩, gone', hf⟩
    exact ⟨fun _ => trivial, fun _ => trivial, fun controllers hc => ⟨hJ controllers hc, gone',
      Framed.congr (q := t'.1) (c := t'.2) hf rfl rfl rfl rfl rfl rfl⟩⟩
  stop l t h := by
    obtain ⟨hs, gone, hframed⟩ := h
    have hassign := hosting_rules.assign machines fun _ _ _ => trivial
    exact ⟨hassign.stop l t hs, gone,
      Framed.congr (q := t.1) (c := t.2) hframed rfl rfl rfl rfl rfl rfl⟩
  change name old new q c h hold hnew hminor := by
    obtain ⟨hs, gone, hframed⟩ := h
    have hassign := hosting_rules.assign machines fun _ _ _ => trivial
    obtain ⟨-, hchanged⟩ := hassign.change name old new q c hs hold hnew hminor
    exact ⟨fun _ => trivial, fun m hm =>
      ⟨hchanged m hm, gone, hframed.congr rfl rfl rfl rfl rfl rfl⟩⟩
  add name new q c h hnone hnew := by
    obtain ⟨hs, gone, hframed⟩ := h
    have hassign := hosting_rules.assign machines fun _ _ _ => trivial
    obtain ⟨-, hadded⟩ := hassign.add name new q c hs hnone hnew
    obtain ⟨-, hj, hret, hjob⟩ := registered_jobs c name new
    have hlimit : (c.registered name new).maxRetiredJobs = c.maxRetiredJobs :=
      registered_induct (P := fun c' => c'.maxRetiredJobs = c.maxRetiredJobs) rfl fun _ _ _ h => h
    exact ⟨fun _ => trivial, fun hqnone =>
      ⟨hadded hqnone, gone, hframed.congr rfl rfl hlimit hret hj hjob⟩⟩
  move name q c h := by
    obtain ⟨hs, gone, hframed⟩ := h
    have hassign := hosting_rules.assign machines fun _ _ _ => trivial
    obtain ⟨-, -, hmoved⟩ := hassign.move name q c hs
    exact ⟨fun _ => trivial, fun _ => trivial, hmoved, gone,
      hframed.congr rfl rfl rfl rfl rfl rfl⟩

theorem pending_unplaced (h : Framed machines t₀ (q, c) gone) (hr : Roster depth (q, c))
    (hp : (q.job j).pending = true) {machine : Configuration.Machine}
    (hid : (q.job j).id ∈ c.jobs) : (t₀.2.job (q.job j).id).allocatedMachine ≠ some machine := by
  intro hmachine
  obtain ⟨-, i, -, hi, -, hpi⟩ := h.kept _ hid machine hmachine
  obtain rfl := Option.some.inj ((hr.linked.known j hp).symm.trans hi)
  dsimp only at hpi
  rw [hp] at hpi
  cases hpi

theorem framed_alloc (h : Framed machines t₀ (q, c) gone) (hr : Roster depth (q, c))
    (hp : (q.job j).pending = true) :
    wp (Allocator.alloc (q.job j).request) (fun res a =>
      match res with
      | none => ∃ gone, Framed machines t₀ (q.setAllocator m a, c) gone
      | some al =>
        wp (onAllocate (q.job j).id (q.machine m).name al.boards al.periphery al.torus)
          (fun _ c' => c'.machines = c.machines ∧
            ∃ gone, Framed machines t₀ ((q.setAllocator m a).placed j m al.id, c') gone)
          (fun _ _ => True) c)
      (fun _ _ => True) (q.machine m).allocator := by
  apply (wp_trivial _).mono _ fun _ _ _ => trivial
  intro res a _
  cases res with
  | none => exact ⟨gone, h.congr rfl rfl rfl rfl rfl rfl⟩
  | some al =>
    apply onAllocate_touches.mono _ fun _ _ _ => trivial
    intro _ c' ht
    refine ⟨ht.machines, gone, (h.touched ht fun machine hid =>
      pending_unplaced h hr hp hid).queue fun k _ i hi hpi => ⟨hi, ?_⟩⟩
    have hne : i ≠ j := by
      intro heq
      rw [heq, hp] at hpi
      cases hpi
    exact (job_placed _ i j m al.id).trans (if_neg hne)

theorem framed_cancel (h : Framed machines t₀ (q, c) gone) (hr : Roster depth (q, c))
    (hp : (q.job j).pending = true) :
    wp (onCancel (q.job j).id reason) (fun _ c' => c'.machines = c.machines ∧
        ∃ gone, Framed machines t₀ ((q.withdrawn j).dropped (q.job j).id, c') gone)
      (fun _ _ => True) c := by
  obtain ⟨hid, hb⟩ := hr.pending j hp
  apply onCancel_wp hid hb
  intro reason
  have hretired : Framed machines t₀ (q, c.retired (q.job j).id reason)
      (gone ++ [((q.job j).id, reason)]) :=
    h.retired hr hid (fun machine hmachine => absurd hmachine (pending_unplaced h hr hp hid))
      (.refl _)
  refine ⟨rfl, _, hretired.queue fun k hk i hi hpi => ⟨?_, ?_⟩⟩
  · exact (Dict.get?_erase_ne _ (Ne.symm (mem_retired.mp hk).2)).trans hi
  · have hne : i ≠ j := by
      intro heq
      rw [heq, hp] at hpi
      cases hpi
    exact (job_withdrawn q i j).trans (if_neg hne)

/-- The tables of machines are final. -/
structure Settled (machines : Machines) (t₀ : JobQueue × Controller) (queued : Dict String ℕ)
    (registered : Dict String Configuration.Machine) (t : JobQueue × Controller) : Prop where
  following : Following machines t₀ 0 t
  queued : t.1.machines = queued
  registered : t.2.machines = registered

theorem settled_rules {queued : Dict String ℕ} {registered : Dict String Configuration.Machine} :
    EnqueueRules callbacks (Settled machines t₀ queued registered) fun _ _ => True where
  alloc q c m j rest h hh hp := by
    obtain ⟨⟨hs, gone, hframed⟩, hqueued, hregistered⟩ := h
    apply (((hosting_rules.rules 0).alloc q c m j rest hs hh hp).and
      (framed_alloc hframed hs.1 hp)).mono _ fun _ _ _ => trivial
    intro res a ⟨hkept, hf⟩
    cases res with
    | none => exact ⟨⟨hkept, hf⟩, hqueued, hregistered⟩
    | some al =>
      apply (hkept.and hf).mono _ fun _ _ _ => trivial
      exact fun _ c' ⟨hs', hsame, hf'⟩ => ⟨⟨hs', hf'⟩, hqueued, hsame.trans hregistered⟩
  skip q c m j rest h hh hp := by
    obtain ⟨⟨hs, gone, hframed⟩, hqueued, hregistered⟩ := h
    exact ⟨⟨(hosting_rules.rules 0).skip q c m j rest hs hh hp, gone,
      hframed.congr rfl rfl rfl rfl rfl rfl⟩, hqueued, hregistered⟩
  known q c j h := (h.following.1.1.indexed).known j
  offer q c j m h hp hm ho := by
    obtain ⟨⟨hs, gone, hframed⟩, hqueued, hregistered⟩ := h
    exact ⟨⟨(hosting_rules.rules 0).offer q c j m hs hp hm ho, gone,
      hframed.congr rfl rfl rfl rfl rfl rfl⟩, hqueued, hregistered⟩
  refused _ _ _ _ _ _ := trivial
  cancel q c j reason h hp := by
    obtain ⟨⟨hs, gone, hframed⟩, hqueued, hregistered⟩ := h
    apply (((hosting_rules.rules 0).cancel q c j reason hs hp).and
      (framed_cancel hframed hs.1 hp)).mono _ fun _ _ _ => trivial
    exact fun _ c' ⟨hs', hsame, hf'⟩ => ⟨⟨hs', hf'⟩, hqueued, hsame.trans hregistered⟩

theorem settled_exit (h : Following machines t₀ 1 t) :
    wp (JobQueue.exit callbacks) (fun _ => Settled machines t₀ t.1.machines t.2.machines)
      (fun _ _ => True) t := by
  obtain ⟨q, c⟩ := t
  obtain ⟨⟨hr, hh⟩, gone, hframed⟩ := h
  have hpost : q.postpone = 1 := hr.postpone
  simp only [JobQueue.exit, wp_bind, wp_change]
  apply regenerateQueues_wp settled_rules
  · intro q' c' hpost
    obtain ⟨⟨⟨hr', hh'⟩, gone', hf⟩, hqueued, hregistered⟩ := hpost
    exact ⟨⟨⟨hr'.queue_congr sameBooks_cleared rfl,
      hosting_rules.view _ _ hh' (sameView_cleared q' c')⟩, gone',
      hf.congr rfl rfl rfl rfl rfl rfl⟩, hqueued, hregistered⟩
  · exact fun _ _ => trivial
  · rw [hpost, sub_self]
    exact ⟨⟨⟨hr.postponed 0, hosting_rules.view _ _ hh (sameView_postponed q c 0)⟩, gone,
      hframed.congr rfl rfl rfl rfl rfl rfl⟩, rfl, rfl⟩

/-- The machine of this name is assigned again, with no more than minor changes. -/
def Keeps (c : Controller) (machines : Machines) (name : String) : Prop :=
  ∃ old new, c.machines.get? name = some old ∧ machines.dict.get? name = some new ∧ old.Alike new

/-- What an assignment that does not raise makes of `t`. Of the jobs that are `gone` since, in
this order, the last ones can still be looked up. -/
structure Reassigned (machines : Machines) (t t' : JobQueue × Controller)
    (gone : List (ℕ × Option String)) : Prop where
  ordered : t'.2.machines.keys = machines.dict.keys
  queued : t'.1.machines.keys = machines.dict.keys
  wired : ∀ name, (t'.2.bmpControllers.get? name).isSome ↔ name ∈ machines.dict.keys
  registered : Renewed machines.dict t'.2.machines
  described : ∀ name new m, machines.dict.get? name = some new →
    t'.1.machines.get? name = some m → Describes new (t'.1.machine m)
  kept : ∀ id ∈ t.2.jobs, ∀ machine, (t.2.job id).allocatedMachine = some machine →
    Keeps t.2 machines machine.name → id ∈ t'.2.jobs ∧ t'.2.job id = t.2.job id ∧
      ∃ j, t.1.jobs.get? id = some j ∧ t'.1.jobs.get? id = some j ∧ t'.1.job j = t.1.job j
  swept : ∀ id ∈ t.2.jobs, ∀ machine, (t.2.job id).allocatedMachine = some machine →
    ¬Keeps t.2 machines machine.name → (id, some "Machine removed.") ∈ gone
  nodup : (gone.map Prod.fst).Nodup
  left : ∀ id, id ∈ gone.map Prod.fst ↔ id ∈ t.2.jobs ∧ id ∉ t'.2.jobs
  recent : gone.rtake t.2.maxRetiredJobs.toNat <:+ t'.2.retiredJobs.entries

theorem Describes.same {m : JobQueue.Machine} {old new : Configuration.Machine}
    (h : Describes old m) (hs : old.Same new) : Describes new m :=
  ⟨h.tags.trans hs.tags, h.width.trans hs.width, h.height.trans hs.height,
    h.deadBoards.trans hs.deadBoards, h.deadLinks.trans hs.deadLinks⟩

theorem Renewed.mem_keys {after registered : Dict String Configuration.Machine}
    (h : Renewed after registered) (name : String) : name ∈ registered.keys ↔ name ∈ after.keys := by
  rw [Dict.mem_keys, Dict.mem_keys]
  constructor
  · intro ⟨machine, hmachine⟩
    by_contra hne
    have hnone : after.get? name = none := by
      by_contra hsome
      exact hne (Option.ne_none_iff_exists'.mp hsome)
    rw [(h name).1 hnone] at hmachine
    cases hmachine
  · intro ⟨new, hnew⟩
    obtain ⟨machine, hmachine, -⟩ := (h name).2 new hnew
    exact ⟨machine, hmachine⟩

theorem Framed.stays (h : Framed machines t t' gone) (hh : Hosting t) (hh' : Hosting t')
    (hn : Renewed machines.dict t'.2.machines) (hid : id ∈ t.2.jobs)
    {machine : Configuration.Machine} (hmachine : (t.2.job id).allocatedMachine = some machine) :
    id ∈ t'.2.jobs ↔ Keeps t.2 machines machine.name := by
  obtain ⟨_, _, old, _, _, _, hold, halike⟩ := hh.hosted id hid machine hmachine
  constructor
  · intro hlive
    have hmachine' : (t'.2.job id).allocatedMachine = some machine := by
      rw [(h.kept id hlive machine hmachine).1]
      exact hmachine
    obtain ⟨_, _, current, _, _, _, hcurrent, halike'⟩ :=
      hh'.hosted id hlive machine hmachine'
    cases hnew : machines.dict.get? machine.name with
    | none =>
      rw [(hn machine.name).1 hnew] at hcurrent
      cases hcurrent
    | some new =>
      obtain ⟨current', hcurrent', hsame⟩ := (hn machine.name).2 new hnew
      obtain rfl := Option.some.inj (hcurrent.symm.trans hcurrent')
      exact ⟨old, new, hold, hnew, halike.symm.trans (halike'.trans hsame.toAlike)⟩
  · intro ⟨old', new, hold', hnew, hkept⟩
    obtain rfl := Option.some.inj (hold.symm.trans hold')
    rw [h.left id]
    refine ⟨hid, fun hgone => ?_⟩
    obtain ⟨⟨id', reason⟩, hin, hid'⟩ := List.mem_map.mp hgone
    dsimp only at hid'
    subst hid'
    exact (h.swept id' reason machine hin hmachine).2 new hnew (halike.trans hkept)

theorem Settled.reassigned {queued : Dict String ℕ}
    {registered : Dict String Configuration.Machine} (h : Settled machines t queued registered t') (hh : Hosting t)
    (hqueued : queued.keys = machines.dict.keys) (hregistered : registered.keys = machines.dict.keys)
    (hn : Renewed machines.dict registered) : ∃ gone, Reassigned machines t t' gone := by
  obtain ⟨⟨⟨_, hh'⟩, gone, hframed⟩, hq, hr⟩ := h
  subst hq hr
  have hlost (id : ℕ) : id ∈ gone.map Prod.fst ↔ id ∈ t.2.jobs ∧ id ∉ t'.2.jobs := by
    rw [hframed.left id]
    constructor
    · exact fun hid => ⟨hframed.known id hid, fun hlive => hlive.2 hid⟩
    · intro ⟨hid, hnot⟩
      by_contra hne
      exact hnot ⟨hid, hne⟩
  refine ⟨gone, hregistered, hqueued, fun name => ?_, hn, fun name new m hnew hm => ?_,
    fun id hid machine hmachine hkept => ?_, fun id hid machine hmachine hkept => ?_,
    hframed.nodup, hlost, hframed.recent⟩
  · rw [hh'.wired name, ← hn.mem_keys, Dict.mem_keys, Option.isSome_iff_exists]
  · obtain ⟨machine, hmachine, hsame⟩ := (hn name).2 new hnew
    exact (hh'.described name machine m hmachine hm).same hsame
  · have hlive := (hframed.stays hh hh' hn hid hmachine).mpr hkept
    obtain ⟨hsame, j, hj, hj', hjob, -⟩ := hframed.kept id hlive machine hmachine
    exact ⟨hlive, hsame, j, hj, hj', hjob⟩
  · have hgone : id ∈ gone.map Prod.fst :=
      (hlost id).mpr ⟨hid, fun hlive => hkept ((hframed.stays hh hh' hn hid hmachine).mp hlive)⟩
    obtain ⟨⟨id', reason⟩, hin, hid'⟩ := List.mem_map.mp hgone
    dsimp only at hid'
    subst hid'
    rw [(hframed.swept id' reason machine hin hmachine).1] at hin
    exact hin

theorem setMachines_reassigns (machines : Machines) (hr : Roster 0 t) (hh : Hosting t) :
    wp (setMachines machines) (fun _ t' => ∃ gone, Reassigned machines t t' gone)
      (fun _ _ => True) t := by
  obtain ⟨q, c⟩ := t
  have hpost : q.postpone = 0 := hr.postpone
  apply (following_assign machines (q, c)).reassign
  · dsimp only
    rw [hpost, zero_add]
    exact ⟨⟨hr.postponed 1, hosting_rules.view _ _ hh (sameView_postponed q c 1)⟩, [],
      .start hr hh 1⟩
  · intro t' ht' hn hmoved
    have hkeys (name : String) : name ∈ t'.2.machines.keys ↔ name ∈ machines.dict.keys :=
      hn.mem_keys name
    have hqkeys (name : String) : name ∈ t'.1.machines.keys ↔ name ∈ machines.dict.keys := by
      rw [← hkeys, Dict.mem_keys, Dict.mem_keys, ← Option.isSome_iff_exists,
        ← Option.isSome_iff_exists]
      exact ht'.1.2.queued name
    apply (settled_exit hmoved).mono _ fun _ _ he => he
    intro _ t'' hsettled
    apply hsettled.reassigned hh
    · exact Dict.keys_reordered machines.dict.nodup hqkeys
    · exact Dict.keys_reordered machines.dict.nodup hkeys
    · intro name
      have hget : (reordered machines.dict.keys t').2.machines.get? name =
          t'.2.machines.get? name := Dict.get?_foldl_moveToEnd _ _ name
      rw [hget]
      exact hn name
  · exact fun _ _ _ => wp_trivial _
  · intro q' c' names ⟨gone, h⟩
    exact ⟨gone, h.ordered, h.queued, h.wired, h.registered, h.described, h.kept, h.swept, h.nodup,
      h.left, h.recent⟩

/-- Whatever has been done, an assignment that does not raise leaves the machines that were
assigned. It keeps the jobs on machines that are kept, and retires those on the others. -/
theorem setMachines_faithful {s : Setup} (h : (system s).Reachable t)
    (hop : Returns t (.setMachines machines)) :
    ∃ gone, Reassigned machines t (next t (.setMachines machines)) gone := by
  obtain ⟨hr, hh⟩ := reachable_hosting h
  obtain ⟨t', hrun⟩ := run_of_isOk hop
  have ht' := wp_of_eq_ok (setMachines_reassigns machines hr hh) hrun
  unfold next
  rw [hrun]
  exact ht'

def noMachines : Machines := ⟨Dict.empty, Machines.named_empty⟩

theorem setMachines_faithful_noMachines :
    (1, some "Machine removed.") ∈
        (next (runs Setup.quiet.start poweringOn) (.setMachines noMachines)).2.retiredJobs.entries ∧
      ∃ gone, Reassigned noMachines (runs Setup.quiet.start poweringOn)
        (next (runs Setup.quiet.start poweringOn) (.setMachines noMachines)) gone :=
  ⟨by decide +kernel, setMachines_faithful (reachable_poweringOn Setup.quiet) (by decide +kernel)⟩

/-- A controller that keeps no retired jobs. -/
def Setup.forgetful : Setup := { Setup.quiet with maxRetiredJobs := 0 }

/-- So the job on the machine that is removed is not among the retired jobs. -/
theorem not_retired_forgetful :
    ¬∀ (s : Setup) (t : JobQueue × Controller) (machines : Machines), (system s).Reachable t →
      Returns t (.setMachines machines) → ∀ id ∈ t.2.jobs, ∀ machine,
      (t.2.job id).allocatedMachine = some machine → ¬Keeps t.2 machines machine.name →
      (next t (.setMachines machines)).2.retiredJobs.get? id = some (some "Machine removed.") := by
  intro h
  have hmachine : ((runs Setup.forgetful.start poweringOn).2.job 1).allocatedMachine ≠ none := by
    decide +kernel
  obtain ⟨machine, hmachine⟩ := Option.ne_none_iff_exists'.mp hmachine
  have hretired := h Setup.forgetful _ noMachines (reachable_poweringOn _) (by decide +kernel) 1
    (by decide +kernel) machine hmachine fun ⟨_, _, _, hnew, _⟩ => nomatch hnew
  have hnone : (next (runs Setup.forgetful.start poweringOn)
      (.setMachines noMachines)).2.retiredJobs.get? 1 = none := by decide +kernel
  rw [hnone] at hretired
  cases hretired

end SpallocServer.Controller
