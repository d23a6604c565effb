import SpallocServer.Controller.Rules

namespace SpallocServer.Controller

open Foundation Prog JobQueue

variable {q : JobQueue} {c c' : Controller} {t : JobQueue × Controller} {id : ℕ}
  {E F : Error → JobQueue × Controller → Prop}

theorem regenerateQueues_postponed {Q : Unit → JobQueue × Controller → Prop} (h : q.postpone ≠ 0)
    (hQ : Q () (q, c)) : wp (regenerateQueues callbacks) Q E (q, c) := by
  simp only [regenerateQueues, wp_bind, wp_queue]
  rw [if_pos h]
  exact hQ

theorem exit_postponed {Q : Unit → JobQueue × Controller → Prop} (h : q.postpone ≠ 1)
    (hQ : Q () ({ q with postpone := q.postpone - 1 }, c)) :
    wp (JobQueue.exit callbacks) Q E (q, c) := by
  simp only [JobQueue.exit, wp_bind, wp_change]
  apply regenerateQueues_postponed _ hQ
  dsimp only
  omega

theorem sweep_wp {K : JobQueue × Controller → Prop} {reason : Option String}
    (hpost : q.postpone ≠ 0) (hlost : q.jobs.get? id = none → F .attributeError (q, c))
    (hcancel : ∀ j, q.jobs.get? id = some j → (q.job j).pending = true →
      wp (onCancel (q.job j).id reason) (fun _ c' => K ((q.withdrawn j).dropped id, c'))
        (fun e c' => F e (q.withdrawn j, c')) c)
    (hfree : ∀ j, q.jobs.get? id = some j → (q.job j).pending = false →
      wp (onFree (q.job j).id reason) (fun _ c' => wp (free callbacks id) (fun _ => K) F (q, c'))
        (fun e c' => F e (q, c')) c) :
    wp (JobQueue.destroyJob callbacks id reason >>= fun _ => free callbacks id) (fun _ => K) F
      (q, c) := by
  rw [wp_bind]
  apply destroyJob_wp (I := fun t => t.1.postpone ≠ 0 ∧ wp (free callbacks id) (fun _ => K) F t)
  · exact fun t ht => processQueue_postponed ht.1 ht.2
  · exact hlost
  · intro j hj hp
    apply (hcancel j hj hp).mono _ fun _ _ he => he
    intro _ c' hK
    refine ⟨hpost, ?_⟩
    simp only [free, wp_bind, wp_queue]
    have hnone : ((q.withdrawn j).dropped id).jobs.get? id = none := Dict.get?_erase_self _ _
    rw [hnone]
    exact hK
  · intro j hj hp
    exact (hfree j hj hp).mono (fun _ _ hK => ⟨hpost, hK⟩) fun _ _ he => he

theorem removeMachine_postponed {name : String} {Q : Unit → JobQueue × Controller → Prop}
    {J : ℕ → List ℕ → JobQueue × Controller → Prop} (hdepth : 0 < q.postpone)
    (hunknown : q.machines.get? name = none → E .keyError (q, c))
    (henter : ∀ m, q.machines.get? name = some m →
      J m q.jobs.values ({ q with postpone := q.postpone + 1 }, c))
    (hpost : ∀ m rest t, J m rest t → t.1.postpone = q.postpone + 1)
    (hskip : ∀ m j rest t, J m (j :: rest) t → (t.1.job j).machine ≠ some m → J m rest t)
    (hsweep : ∀ m j rest t, J m (j :: rest) t → (t.1.job j).machine = some m →
      wp (JobQueue.destroyJob callbacks (t.1.job j).id (some "Machine removed.") >>= fun _ =>
        free callbacks (t.1.job j).id) (fun _ => J m rest) F t)
    (hleave : ∀ m t, q.machines.get? name = some m → J m [] t →
      Q () ({ t.1 with machines := t.1.machines.erase name, postpone := q.postpone }, t.2))
    (hraise : ∀ e t, F e t → wp (JobQueue.exit callbacks) (fun _ => E e) E t) :
    wp (JobQueue.removeMachine callbacks name) Q E (q, c) := by
  apply removeMachine_wp (F := F)
    (J := fun m rest t => q.machines.get? name = some m ∧ J m rest t) hunknown
  · exact fun m hm => ⟨hm, henter m hm⟩
  · exact fun m j rest t ⟨hm, ht⟩ hj => ⟨hm, hskip m j rest t ht hj⟩
  · exact fun m j rest t ⟨hm, ht⟩ hj =>
      (hsweep m j rest t ht hj).mono (fun _ _ hJ => ⟨hm, hJ⟩) fun _ _ he => he
  · intro m t ⟨hm, ht⟩
    have hp := hpost m [] t ht
    have hback : t.1.postpone - 1 = q.postpone := by omega
    apply exit_postponed
    · dsimp only
      omega
    · dsimp only
      rw [hback]
      exact hleave m t hm ht
  · exact hraise

def tables (c : Controller) :
    Dict String Configuration.Machine × Dict String (Dict (ℤ × ℤ) ℕ) × ℕ :=
  (c.machines, c.bmpControllers, c.nextBmp)

theorem Touches.tables (h : Touches id c c') : tables c' = tables c := by
  unfold Controller.tables
  rw [h.machines, h.bmpControllers, h.nextBmp]

theorem setJobPowerAndLinks_tables {power : Bool} {linkEnable : Option Bool} :
    wp (setJobPowerAndLinks id power linkEnable) (fun _ c' => tables c' = tables c)
      (fun _ _ => True) c := by
  apply setJobPowerAndLinks_wp
  · exact fun _ _ => (touches_commanded _ _).tables
  · exact fun _ _ => trivial
  · exact fun _ _ _ _ _ => trivial

theorem teardownJob_tables {reason : Option String} :
    wp (teardownJob id reason) (fun _ c' => tables c' = tables c) (fun _ _ => True) c := by
  apply teardownJob_wp
  · exact fun _ => trivial
  · exact fun _ _ => rfl
  · exact fun _ _ => setJobPowerAndLinks_tables

theorem onFree_tables {reason : Option String} :
    wp (onFree id reason) (fun _ c' => tables c' = tables c) (fun _ _ => True) c := by
  apply onFree_wp
  · exact fun _ => trivial
  · exact fun _ _ => trivial
  · exact fun _ _ _ => teardownJob_tables

theorem removeMachine_tables {name : String} (hdepth : 0 < t.1.postpone) :
    wp (JobQueue.removeMachine callbacks name)
      (fun _ t' => t'.1.postpone = t.1.postpone ∧ tables t'.2 = tables t.2) (fun _ _ => True) t := by
  obtain ⟨q, c⟩ := t
  apply removeMachine_postponed (F := fun _ _ => True)
    (J := fun _ _ t' => t'.1.postpone = q.postpone + 1 ∧ tables t'.2 = tables c) hdepth
  · exact fun _ => trivial
  · exact fun _ _ => ⟨rfl, rfl⟩
  · exact fun _ _ _ ht => ht.1
  · exact fun _ _ _ _ ht _ => ht
  · intro m j rest ⟨q', c'⟩ ⟨hp, ht⟩ _
    dsimp only at hp ht
    have hkept (c'' : Controller) (h : tables c'' = tables c') : tables c'' = tables c :=
      h.trans ht
    apply sweep_wp
    · dsimp only at hdepth
      omega
    · exact fun _ => trivial
    · intro i _ _
      exact teardownJob_tables.mono (fun _ c'' h => ⟨hp, hkept c'' h⟩) fun _ _ he => he
    · intro i _ _
      apply (onFree_tables.mono (fun _ c'' h => ?_) fun _ _ he => he)
      apply free_wp (I := fun t' => t'.1.postpone = q.postpone + 1 ∧ tables t'.2 = tables c)
      · intro t' ht'
        apply processQueue_postponed _ ht'
        dsimp only at hdepth
        omega
      · exact fun _ => ⟨hp, hkept c'' h⟩
      · exact fun _ _ _ => trivial
      · exact fun _ _ _ => trivial
      · intro i m a _ _ _
        exact (wp_trivial _).mono (fun _ _ _ => ⟨hp, hkept c'' h⟩) fun _ _ he => he
  · exact fun _ t' _ ht => ⟨rfl, ht.2⟩
  · exact fun _ _ _ => wp_trivial _

theorem mem_common {before after : Dict String Configuration.Machine} {change : Change}
    {name : String} : name ∈ common before after change ↔
      ∃ old new, before.get? name = some old ∧ after.get? name = some new ∧
        compare old new = change := by
  simp only [common, Finset.mem_filter, List.mem_toFinset, Dict.mem_keys]
  constructor
  · intro ⟨⟨old, hold⟩, hchange⟩
    cases hnew : after.get? name with
    | none =>
      rw [hold, hnew] at hchange
      cases hchange
    | some new =>
      rw [hold, hnew] at hchange
      exact ⟨old, new, hold, rfl, Option.some.inj hchange⟩
  · intro ⟨old, new, hold, hnew, hchange⟩
    refine ⟨⟨old, hold⟩, ?_⟩
    rw [hold, hnew]
    exact congrArg some hchange

theorem mem_addedNames {before after : Dict String Configuration.Machine} {name : String}
    (h : name ∈ addedNames before after) : ∃ new, after.get? name = some new := by
  obtain h | h := Finset.mem_union.mp h
  · exact Dict.mem_keys.mp (List.mem_toFinset.mp (Finset.mem_sdiff.mp h).1)
  · obtain ⟨_, new, -, hnew, -⟩ := mem_common.mp h
    exact ⟨new, hnew⟩

theorem notMem_removedNames {before after : Dict String Configuration.Machine} {name : String}
    (h : name ∈ common before after .minor) : name ∉ removedNames before after := by
  obtain ⟨old, new, hold, hnew, hminor⟩ := mem_common.mp h
  intro hremoved
  obtain hgone | hmajor := Finset.mem_union.mp hremoved
  · apply (Finset.mem_sdiff.mp hgone).2
    exact List.mem_toFinset.mpr (Dict.mem_keys.mpr ⟨new, hnew⟩)
  · obtain ⟨old', new', hold', hnew', hmajor⟩ := mem_common.mp hmajor
    rw [hold] at hold'
    rw [hnew] at hnew'
    cases hold'
    cases hnew'
    rw [hminor] at hmajor
    cases hmajor

def unregistered (c : Controller) (name : String) : Controller :=
  { c with
    machines := c.machines.erase name
    bmpControllers := c.bmpControllers.erase name }

def registered (c : Controller) (name : String) (machine : Configuration.Machine) : Controller :=
  wiredUp { c with machines := c.machines.set name machine } machine

theorem requests_stopped (bmps : List ℕ) (b : ℕ) :
    ((c.stopped bmps).bmp b).requests = (c.bmp b).requests := by
  change (if b ∈ bmps then (c.bmp b).stop else c.bmp b).requests = _
  split <;> rfl

theorem registered_induct {P : Controller → Prop} {name : String} {machine : Configuration.Machine}
    (h0 : P { c with
      machines := c.machines.set name machine
      bmpControllers := c.bmpControllers.set machine.name Dict.empty })
    (h1 : ∀ c frame hostname, P c → P (c.wired machine.name frame hostname)) :
    P (c.registered name machine) := by
  have hfold (l : List ((ℤ × ℤ) × String)) (c : Controller) (h : P c) :
      P (l.foldl (fun c p => c.wired machine.name p.1 p.2) c) := by
    induction l generalizing c with
    | nil => exact h
    | cons p l ih => exact ih _ (h1 c p.1 p.2 h)
  exact hfold _ _ h0

theorem registered_jobs (c : Controller) (name : String) (machine : Configuration.Machine) :
    (c.registered name machine).nextId = c.nextId ∧ (c.registered name machine).jobs = c.jobs ∧
      (c.registered name machine).retiredJobs = c.retiredJobs ∧
      (c.registered name machine).job = c.job :=
  registered_induct (P := fun c' => c'.nextId = c.nextId ∧ c'.jobs = c.jobs ∧
    c'.retiredJobs = c.retiredJobs ∧ c'.job = c.job) ⟨rfl, rfl, rfl, rfl⟩ fun _ _ _ h => h

theorem mem_addedNames_iff {before after : Dict String Configuration.Machine} {name : String} :
    name ∈ addedNames before after ↔ ∃ new, after.get? name = some new ∧
      ∀ old, before.get? name = some old → compare old new = .major := by
  simp only [addedNames, Finset.mem_union, Finset.mem_sdiff, List.mem_toFinset, Dict.mem_keys,
    mem_common]
  constructor
  · intro h
    obtain ⟨⟨new, hnew⟩, hunknown⟩ | ⟨old, new, hold, hnew, hmajor⟩ := h
    · exact ⟨new, hnew, fun old hold => absurd ⟨old, hold⟩ hunknown⟩
    · refine ⟨new, hnew, fun old' hold' => ?_⟩
      rw [hold] at hold'
      cases hold'
      exact hmajor
  · intro ⟨new, hnew, hmajor⟩
    cases hold : before.get? name with
    | none => exact .inl ⟨⟨new, hnew⟩, fun ⟨old, hold'⟩ => nomatch hold'⟩
    | some old => exact .inr ⟨old, new, rfl, hnew, hmajor old hold⟩

theorem mem_removedNames_iff {before after : Dict String Configuration.Machine} {name : String} :
    name ∈ removedNames before after ↔ ∃ old, before.get? name = some old ∧
      ∀ new, after.get? name = some new → compare old new = .major := by
  simp only [removedNames, Finset.mem_union, Finset.mem_sdiff, List.mem_toFinset, Dict.mem_keys,
    mem_common]
  constructor
  · intro h
    obtain ⟨⟨old, hold⟩, hunknown⟩ | ⟨old, new, hold, hnew, hmajor⟩ := h
    · exact ⟨old, hold, fun new hnew => absurd ⟨new, hnew⟩ hunknown⟩
    · refine ⟨old, hold, fun new' hnew' => ?_⟩
      rw [hnew] at hnew'
      cases hnew'
      exact hmajor
  · intro ⟨old, hold, hmajor⟩
    cases hnew : after.get? name with
    | none => exact .inl ⟨⟨old, hold⟩, fun ⟨new, hnew'⟩ => nomatch hnew'⟩
    | some new => exact .inr ⟨old, new, hold, rfl, hmajor new hnew⟩

theorem removed_of_added {before after : Dict String Configuration.Machine} {name : String}
    (h : name ∈ addedNames before after) :
    name ∈ removedNames before after ∨ before.get? name = none := by
  obtain ⟨new, hnew, hmajor⟩ := mem_addedNames_iff.mp h
  cases hold : before.get? name with
  | none => exact .inr rfl
  | some old =>
    refine .inl (mem_removedNames_iff.mpr ⟨old, hold, fun new' hnew' => ?_⟩)
    rw [hnew] at hnew'
    cases hnew'
    exact hmajor old hold

theorem notMem_addedNames {before after : Dict String Configuration.Machine} {name : String}
    (h : name ∈ common before after .minor) : name ∉ addedNames before after := by
  obtain ⟨old, new, hold, hnew, hminor⟩ := mem_common.mp h
  intro hadded
  obtain ⟨new', hnew', hmajor⟩ := mem_addedNames_iff.mp hadded
  rw [hnew] at hnew'
  cases hnew'
  rw [hmajor old hold] at hminor
  cases hminor

/-- The machines are those that were assigned. One that is as it was may keep its entries in
another order. -/
def Renewed (after machines : Dict String Configuration.Machine) : Prop :=
  ∀ name, (after.get? name = none → machines.get? name = none) ∧
    ∀ new, after.get? name = some new →
      ∃ machine, machines.get? name = some machine ∧ machine.Same new

theorem renewed (before : Dict String Configuration.Machine)
    {after machines : Dict String Configuration.Machine}
    (h : ∀ name, machines.get? name =
      if name ∈ addedNames before after ∨ name ∈ common before after .minor then after.get? name
      else if name ∈ removedNames before after then none else before.get? name) :
    Renewed after machines := by
  intro name
  rw [h name]
  constructor
  · intro hnone
    split
    · exact hnone
    split
    · rfl
    · next hremoved =>
      by_contra hne
      obtain ⟨old, hold⟩ := Option.ne_none_iff_exists'.mp hne
      refine hremoved (mem_removedNames_iff.mpr ⟨old, hold, fun new hnew => ?_⟩)
      rw [hnone] at hnew
      cases hnew
  · intro new hnew
    split
    · exact ⟨new, hnew, .refl new⟩
    · next hkept =>
      rw [not_or] at hkept
      cases hold : before.get? name with
      | none =>
        refine absurd (mem_addedNames_iff.mpr ⟨new, hnew, fun old hold' => ?_⟩) hkept.1
        rw [hold] at hold'
        cases hold'
      | some old =>
        cases hchange : compare old new with
        | major =>
          refine absurd (mem_addedNames_iff.mpr ⟨new, hnew, fun old' hold' => ?_⟩) hkept.1
          rw [hold] at hold'
          cases hold'
          exact hchange
        | minor => exact absurd (mem_common.mpr ⟨old, new, hold, hnew, hchange⟩) hkept.2
        | none =>
          rw [if_neg]
          · refine ⟨old, rfl, ?_⟩
            unfold compare at hchange
            split at hchange
            · next hsame => exact hsame
            · split at hchange <;> cases hchange
          · intro hremoved
            obtain ⟨old', hold', hmajor⟩ := mem_removedNames_iff.mp hremoved
            rw [hold] at hold'
            cases hold'
            rw [hmajor new hnew] at hchange
            cases hchange

theorem treated {α : Type} {name name' : String} {names : List String} (f g : String → α) :
    (if name' ∈ names then f name' else if name = name' then f name else g name') =
      if name' ∈ name :: names then f name' else g name' := by
  by_cases h : name = name'
  · subst h
    simp
  · simp [h, Ne.symm h]

def reordered (names : List String) (t : JobQueue × Controller) : JobQueue × Controller :=
  ({ t.1 with machines := names.foldl Dict.moveToEnd t.1.machines },
    { t.2 with machines := names.foldl Dict.moveToEnd t.2.machines })

def announced (before after : Dict String Configuration.Machine) (t : JobQueue × Controller) :
    JobQueue × Controller :=
  (t.1, { t.2 with
    changedMachines := t.2.changedMachines ∪ addedNames before after ∪
      common before after .minor ∪ removedNames before after })

theorem moveMachines_reordered {names : List String} :
    wp (forEach names moveToEnd) (fun _ t' => t' = reordered names t) (fun _ _ => True) t := by
  induction names generalizing t with
  | nil => rfl
  | cons name names ih =>
    change wp (moveToEnd name >>= fun _ => forEach names moveToEnd) _ _ t
    simp only [moveToEnd, moveMachineToEnd, wp_bind, wp_controller]
    split
    · trivial
    · simp only [wp_bind, wp_adjust, wp_queue]
      split
      · trivial
      · exact ih

theorem registered_machines {name : String} {machine : Configuration.Machine} :
    (c.registered name machine).machines = c.machines.set name machine :=
  registered_induct (P := fun c' => c'.machines = c.machines.set name machine) rfl
    fun _ _ _ h => h

/-- What is kept while machines are assigned, with `F` for an early end. The controllers in the
list are of machines that are removed, and are about to be stopped. -/
structure AssignRules (machines : Machines) (J : List ℕ → JobQueue × Controller → Prop)
    (F : Error → JobQueue × Controller → Prop) : Prop where
  postponed : ∀ l t, J l t → 0 < t.1.postpone
  remove : ∀ l name t, J l t → (∀ old new, t.2.machines.get? name = some old →
      machines.dict.get? name = some new → compare old new = .major) →
    wp (JobQueue.removeMachine callbacks name) (fun _ t' =>
      (t'.2.machines.get? name = none → F .keyError t') ∧
      (t'.2.bmpControllers.get? name = none →
        F .keyError (t'.1, { t'.2 with machines := t'.2.machines.erase name })) ∧
      ∀ controllers, t'.2.bmpControllers.get? name = some controllers →
        J (l ++ controllers.values) (t'.1, t'.2.unregistered name)) F t
  stop : ∀ l t, J l t → J [] (t.1, t.2.stopped l)
  change : ∀ name old new q c, J [] (q, c) → c.machines.get? name = some old →
    machines.dict.get? name = some new → compare old new = .minor →
    (q.machines.get? name = none → F .keyError (q, c)) ∧
    ∀ m, q.machines.get? name = some m →
      J [] (q.setMachine m ((q.machine m).modified (some new.tags) (some new.deadBoards)
        (some new.deadLinks)), { c with machines := c.machines.set name new })
  add : ∀ name new q c, J [] (q, c) → c.machines.get? name = none →
    machines.dict.get? name = some new →
    ((q.machines.get? name).isSome →
      F (.valueError s!"Machine name {name} already in use.") (q, c.registered name new)) ∧
    (q.machines.get? name = none →
      J [] (q.added name new.width new.height (some new.tags) new.deadBoards new.deadLinks,
        c.registered name new))
  move : ∀ name q c, J [] (q, c) → (c.machines.get? name = none → F .keyError (q, c)) ∧
    (q.machines.get? name = none →
      F .keyError (q, { c with machines := c.machines.moveToEnd name })) ∧
    J [] ({ q with machines := q.machines.moveToEnd name },
      { c with machines := c.machines.moveToEnd name })

namespace AssignRules

variable {machines : Machines} {J : List ℕ → JobQueue × Controller → Prop}
  {K : JobQueue × Controller → Prop}

theorem and {J' : List ℕ → JobQueue × Controller → Prop} {F' : Error → JobQueue × Controller → Prop}
    (h : AssignRules machines J F) (h' : AssignRules machines J' F') :
    AssignRules machines (fun l t => J l t ∧ J' l t) fun e t => F e t ∧ F' e t where
  postponed l t ht := h.postponed l t ht.1
  remove l name t ht hmajor := by
    apply ((h.remove l name t ht.1 hmajor).and (h'.remove l name t ht.2 hmajor)).mono _
      fun _ _ he => he
    intro _ t' hpost
    obtain ⟨⟨hname, hwired, hJ⟩, hname', hwired', hJ'⟩ := hpost
    exact ⟨fun hn => ⟨hname hn, hname' hn⟩, fun hn => ⟨hwired hn, hwired' hn⟩,
      fun controllers hc => ⟨hJ controllers hc, hJ' controllers hc⟩⟩
  stop l t ht := ⟨h.stop l t ht.1, h'.stop l t ht.2⟩
  change name old new q c ht hold hnew hminor := by
    obtain ⟨hnone, hsome⟩ := h.change name old new q c ht.1 hold hnew hminor
    obtain ⟨hnone', hsome'⟩ := h'.change name old new q c ht.2 hold hnew hminor
    exact ⟨fun hn => ⟨hnone hn, hnone' hn⟩, fun m hm => ⟨hsome m hm, hsome' m hm⟩⟩
  add name new q c ht hnone hnew := by
    obtain ⟨hused, hadded⟩ := h.add name new q c ht.1 hnone hnew
    obtain ⟨hused', hadded'⟩ := h'.add name new q c ht.2 hnone hnew
    exact ⟨fun hs => ⟨hused hs, hused' hs⟩, fun hn => ⟨hadded hn, hadded' hn⟩⟩
  move name q c ht := by
    obtain ⟨hunknown, hunqueued, hmoved⟩ := h.move name q c ht.1
    obtain ⟨hunknown', hunqueued', hmoved'⟩ := h'.move name q c ht.2
    exact ⟨fun hn => ⟨hunknown hn, hunknown' hn⟩, fun hn => ⟨hunqueued hn, hunqueued' hn⟩,
      hmoved, hmoved'⟩

theorem weaken {F' : Error → JobQueue × Controller → Prop} (h : AssignRules machines J F)
    (hF : ∀ e t, F e t → F' e t) : AssignRules machines J F' where
  postponed := h.postponed
  remove l name t ht hmajor := by
    apply (h.remove l name t ht hmajor).mono _ fun e t he => hF e t he
    intro _ t' hpost
    obtain ⟨hname, hwired, hJ⟩ := hpost
    exact ⟨fun hn => hF _ _ (hname hn), fun hn => hF _ _ (hwired hn), hJ⟩
  stop := h.stop
  change name old new q c ht hold hnew hminor := by
    obtain ⟨hnone, hsome⟩ := h.change name old new q c ht hold hnew hminor
    exact ⟨fun hn => hF _ _ (hnone hn), hsome⟩
  add name new q c ht hnone hnew := by
    obtain ⟨hused, hadded⟩ := h.add name new q c ht hnone hnew
    exact ⟨fun hs => hF _ _ (hused hs), hadded⟩
  move name q c ht := by
    obtain ⟨hunknown, hunqueued, hmoved⟩ := h.move name q c ht
    exact ⟨fun hn => hF _ _ (hunknown hn), fun hn => hF _ _ (hunqueued hn), hmoved⟩

theorem removeMachines (h : AssignRules machines J F) {l : List ℕ} {names : List String}
    (ht : J l t) (hmajor : ∀ name ∈ names, ∀ old new, t.2.machines.get? name = some old →
      machines.dict.get? name = some new → compare old new = .major) :
    wp (removeMachines names) (fun bmps t' => J (l ++ bmps) t' ∧ ∀ name,
      t'.2.machines.get? name = if name ∈ names then none else t.2.machines.get? name) F t := by
  induction names generalizing l t with
  | nil =>
    refine ⟨?_, fun name => (if_neg List.not_mem_nil).symm⟩
    rwa [List.append_nil]
  | cons name names ih =>
    simp only [Controller.removeMachines, wp_bind]
    apply ((h.remove l name t ht (hmajor name List.mem_cons_self)).and
      (removeMachine_tables (h.postponed l t ht))).mono _ fun _ _ he => he.1
    intro _ t' hpost
    obtain ⟨⟨hname, hwired, hJ⟩, _, hsame⟩ := hpost
    have htables : t'.2.machines = t.2.machines := congrArg Prod.fst hsame
    rw [wp_bind, wp_controller]
    split
    · next hn => exact hname (Option.isNone_iff_eq_none.mp hn)
    rw [wp_bind, wp_adjust]
    split
    · next hn => exact hwired hn
    next controllers hc =>
    rw [wp_bind, wp_adjust, wp_bind]
    apply (ih (hJ controllers hc) fun name' hname' old new hold => ?_).mono _ fun _ _ he => he
    · intro bmps t'' hpost
      obtain ⟨hJ', hkept⟩ := hpost
      refine ⟨by rwa [List.append_assoc] at hJ', fun name' => ?_⟩
      rw [hkept name']
      change (if name' ∈ names then none else (t'.2.machines.erase name).get? name') = _
      rw [Dict.get?_erase, htables]
      exact treated (fun _ => none) t.2.machines.get?
    · have hold' : t'.2.machines.get? name' = some old := Dict.get?_of_erase hold
      rw [htables] at hold'
      exact hmajor name' (List.mem_cons_of_mem name hname') old new hold'

theorem changeMachines (h : AssignRules machines J F) {names : List String} (ht : J [] t)
    (hn : names.Nodup) (hminor : ∀ name ∈ names, ∃ old new, t.2.machines.get? name = some old ∧
      machines.dict.get? name = some new ∧ compare old new = .minor) :
    wp (forEach names (changeMachine machines.dict)) (fun _ t' => J [] t' ∧ ∀ name,
      t'.2.machines.get? name =
        if name ∈ names then machines.dict.get? name else t.2.machines.get? name) F t := by
  induction names generalizing t with
  | nil => exact ⟨ht, fun name => (if_neg List.not_mem_nil).symm⟩
  | cons name names ih =>
    obtain ⟨old, new, hold, hnew, hm⟩ := hminor name List.mem_cons_self
    obtain ⟨hnotin, hn⟩ := List.nodup_cons.mp hn
    obtain ⟨hnone, hsome⟩ := h.change name old new t.1 t.2 ht hold hnew hm
    change wp (changeMachine machines.dict name >>= fun _ => forEach names _) _ _ t
    simp only [changeMachine, hnew, JobQueue.modifyMachine, wp_bind, wp_queue]
    cases hget : t.1.machines.get? name with
    | none => exact hnone hget
    | some m =>
      dsimp only
      rw [wp_bind, wp_change]
      have hpost : t.1.postpone ≠ 0 := (h.postponed [] t ht).ne'
      apply regenerateQueues_postponed (q := t.1.setMachine m _) hpost
      rw [wp_adjust]
      apply (ih (hsome m hget) hn fun name' hname' => ?_).mono _ fun _ _ he => he
      · intro _ t' hpost
        obtain ⟨hJ, hkept⟩ := hpost
        refine ⟨hJ, fun name' => ?_⟩
        rw [hkept name']
        change (if name' ∈ names then _ else (t.2.machines.set name new).get? name') = _
        rw [Dict.get?_set, ← hnew]
        exact treated machines.dict.get? t.2.machines.get?
      · have hne : name ≠ name' := fun he => hnotin (he ▸ hname')
        change ∃ old new, (t.2.machines.set name _).get? name' = some old ∧ _
        rw [Dict.get?_set_ne _ hne]
        exact hminor name' (List.mem_cons_of_mem name hname')

theorem addMachines (h : AssignRules machines J F) {names : List String} (ht : J [] t)
    (hn : names.Nodup) (hnone : ∀ name ∈ names, t.2.machines.get? name = none)
    (hknown : ∀ name ∈ names, ∃ new, machines.dict.get? name = some new) :
    wp (forEach names (addMachine machines.dict)) (fun _ t' => J [] t' ∧ ∀ name,
      t'.2.machines.get? name =
        if name ∈ names then machines.dict.get? name else t.2.machines.get? name) F t := by
  induction names generalizing t with
  | nil => exact ⟨ht, fun name => (if_neg List.not_mem_nil).symm⟩
  | cons name names ih =>
    obtain ⟨new, hnew⟩ := hknown name List.mem_cons_self
    obtain ⟨hnotin, hn⟩ := List.nodup_cons.mp hn
    obtain ⟨hused, hadded⟩ :=
      h.add name new t.1 t.2 ht (hnone name List.mem_cons_self) hnew
    change wp (addMachine machines.dict name >>= fun _ => forEach names _) _ _ t
    simp only [addMachine_some hnew, wp_bind, wp_adjust, JobQueue.addMachine, wp_queue]
    split
    · next hs => exact hused hs
    · next hs =>
      rw [wp_bind, wp_change]
      have hpost : t.1.postpone ≠ 0 := (h.postponed [] t ht).ne'
      apply regenerateQueues_postponed (q := t.1.added ..) hpost
      have hset (name' : String) : (t.2.registered name new).machines.get? name' =
          if name = name' then some new else t.2.machines.get? name' := by
        rw [registered_machines, Dict.get?_set]
      apply (ih (hadded (Option.not_isSome_iff_eq_none.mp hs)) hn (fun name' hname' => ?_)
        fun name' hname' => hknown name' (List.mem_cons_of_mem name hname')).mono _
          fun _ _ he => he
      · intro _ t' hpost
        obtain ⟨hJ, hkept⟩ := hpost
        refine ⟨hJ, fun name' => ?_⟩
        rw [hkept name', hset name', ← hnew]
        exact treated machines.dict.get? t.2.machines.get?
      · have hne : name ≠ name' := fun he => hnotin (he ▸ hname')
        rw [hset name', if_neg hne]
        exact hnone name' (List.mem_cons_of_mem name hname')

theorem moveMachines (h : AssignRules machines J F) {names : List String} (ht : J [] t) :
    wp (forEach names moveToEnd) (fun _ => J []) F t := by
  apply wp_forEach (I := fun _ => J []) _ ht
  intro name rest t _ ht
  obtain ⟨hunknown, hunqueued, hmoved⟩ := h.move name t.1 t.2 ht
  simp only [moveToEnd, moveMachineToEnd, wp_bind, wp_controller]
  split
  · next hn => exact hunknown (Option.isNone_iff_eq_none.mp hn)
  · simp only [wp_bind, wp_adjust, wp_queue]
    split
    · next hn => exact hunqueued (Option.isNone_iff_eq_none.mp hn)
    · exact hmoved

/-- From `J` inside of the block to `K` after it, with what is known of the tables at its end. The
names of the machines that have changed are recorded last. -/
theorem reassigns (h : AssignRules machines J F)
    (ht : J [] ({ t.1 with postpone := t.1.postpone + 1 }, t.2))
    (hexit : ∀ t, J [] t → Renewed machines.dict t.2.machines →
      J [] (reordered machines.dict.keys t) →
      wp (JobQueue.exit callbacks) (fun _ => K) E (reordered machines.dict.keys t))
    (hraise : ∀ e t, F e t → wp (JobQueue.exit callbacks) (fun _ => E e) E t) :
    wp (setMachines machines)
      (fun _ t' => ∃ u, K u ∧ t' = announced t.2.machines machines.dict u) E t := by
  have hfail {e : Error} {t : JobQueue × Controller} (he : F e t) := hraise e t he
  have horder (names : Finset String) (name : String) :
      name ∈ t.2.nameOrder.list names ↔ name ∈ names := t.2.nameOrder.mem names name
  simp only [Controller.setMachines, setMachinesWith, enter, wp_bind, wp_controller, wp_change, wp_ensuring]
  apply (h.removeMachines ht fun name hname old new hold hnew => ?major).mono _ fun _ _ => hfail
  case major =>
    obtain ⟨old', hold', hmajor⟩ := mem_removedNames_iff.mp ((horder _ _).mp hname)
    obtain rfl := Option.some.inj (hold'.symm.trans hold)
    exact hmajor new hnew
  intro bmps t₁ hpost
  obtain ⟨hJ, hremoved⟩ := hpost
  simp only [horder] at hremoved
  rw [wp_bind, wp_adjust, wp_bind]
  apply (h.changeMachines (h.stop _ t₁ hJ) (t.2.nameOrder.nodup _) fun name hname => ?_).mono _
    fun _ _ => hfail
  · intro _ t₂ hpost
    obtain ⟨hJ, hminor⟩ := hpost
    simp only [horder] at hminor
    rw [wp_bind]
    apply (h.addMachines hJ (t.2.nameOrder.nodup _) (fun name hname => ?_) fun name hname =>
      mem_addedNames ((horder _ _).mp hname)).mono _ fun _ _ => hfail
    · intro _ t₃ hpost
      obtain ⟨hJ, hadded⟩ := hpost
      simp only [horder] at hadded
      apply ((h.moveMachines hJ).and moveMachines_reordered).mono _ fun _ _ he => hfail he.1
      intro _ t₄ hpost
      obtain ⟨hJ', hmoved⟩ := hpost
      rw [hmoved] at hJ' ⊢
      apply (hexit t₃ hJ (renewed t.2.machines fun name => ?_) hJ').mono _
        fun _ _ he => he
      · exact fun _ t' hK => ⟨t', hK, rfl⟩
      · rw [hadded name, hminor name]
        have hstopped : (t₁.2.stopped ([] ++ bmps)).machines = t₁.2.machines := rfl
        rw [hstopped, hremoved name]
        by_cases ha : name ∈ addedNames t.2.machines machines.dict
        · rw [if_pos ha, if_pos (.inl ha)]
        · rw [if_neg ha]
          simp only [ha, false_or]
    · have hname := (horder _ _).mp hname
      rw [hminor name, if_neg fun hc => notMem_addedNames hc hname]
      change t₁.2.machines.get? name = none
      rw [hremoved name]
      obtain hr | hnone := removed_of_added hname
      · rw [if_pos hr]
      · split
        · rfl
        · exact hnone
  · have hminor := (horder _ _).mp hname
    obtain ⟨old, new, hold, hnew, hm⟩ := mem_common.mp hminor
    refine ⟨old, new, ?_, hnew, hm⟩
    change t₁.2.machines.get? name = some old
    rw [hremoved name, if_neg (notMem_removedNames hminor)]
    exact hold

theorem reassign (h : AssignRules machines J F)
    (ht : J [] ({ t.1 with postpone := t.1.postpone + 1 }, t.2))
    (hexit : ∀ t, J [] t → Renewed machines.dict t.2.machines →
      J [] (reordered machines.dict.keys t) →
      wp (JobQueue.exit callbacks) (fun _ => K) E (reordered machines.dict.keys t))
    (hraise : ∀ e t, F e t → wp (JobQueue.exit callbacks) (fun _ => E e) E t)
    (hchanged : ∀ q c names, K (q, c) → K (q, { c with changedMachines := names })) :
    wp (setMachines machines) (fun _ => K) E t := by
  apply (h.reassigns ht hexit hraise).mono _ fun _ _ he => he
  rintro _ _ ⟨u, hK, rfl⟩
  exact hchanged u.1 u.2 _ hK

theorem setMachines (h : AssignRules machines J F)
    (ht : J [] ({ t.1 with postpone := t.1.postpone + 1 }, t.2))
    (hexit : ∀ t, J [] t → wp (JobQueue.exit callbacks) (fun _ => K) E t)
    (hraise : ∀ e t, F e t → wp (JobQueue.exit callbacks) (fun _ => E e) E t)
    (hchanged : ∀ q c names, K (q, c) → K (q, { c with changedMachines := names })) :
    wp (setMachines machines) (fun _ => K) E t :=
  h.reassign ht (fun _ _ _ ht => hexit _ ht) hraise hchanged

end AssignRules

end SpallocServer.Controller
