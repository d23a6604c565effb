import SpallocServer.Allocator.Stock
import SpallocServer.Controller.Counter
import SpallocServer.Controller.Hosting

namespace SpallocServer.Controller

open Foundation Prog JobQueue Allocator

variable {q q' : JobQueue} {c c' : Controller} {t t' : JobQueue × Controller} {id j m k : ℕ}
  {depth : ℤ} {name : String} {machine old new : Configuration.Machine} {boards : Finset Board}
  {periphery : Finset BoardLink}

structure Equips (machine : Configuration.Machine) (b : Board) : Prop where
  located : (machine.boardLocations.get? b).isSome
  addressed : (machine.spinnakerIps.get? b).isSome

theorem equips_works {b : Board} (hb : Coordinates.InMachine machine.width machine.height b)
    (hd : b ∉ machine.deadBoards) : Equips machine b :=
  ⟨Option.isSome_iff_exists.mpr (Dict.mem_keys.mp (machine.located b hb hd)),
    Option.isSome_iff_exists.mpr (Dict.mem_keys.mp (machine.addressed b hb hd))⟩

theorem Equips.alike {b : Board} (h : Equips old b) (ha : old.Alike new) : Equips new b :=
  ⟨ha.boardLocations b ▸ h.located, ha.spinnakerIps b ▸ h.addressed⟩

theorem leastBoard_isOk (h : boards.Nonempty) : ∃ origin, leastBoard boards = .ok origin := by
  unfold leastBoard
  rw [dif_pos ((Finset.map_nonempty).mpr h)]
  exact ⟨_, rfl⟩

theorem greatestBoard_isOk (h : boards.Nonempty) : ∃ top, greatestBoard boards = .ok top := by
  unfold greatestBoard
  rw [dif_pos ((Finset.map_nonempty).mpr h)]
  exact ⟨_, rfl⟩

theorem connect_isOk {origin : Board} {connections : Dict (ℤ × ℤ) String} {l : List Board}
    (h : ∀ b ∈ l, Equips machine b) :
    ∃ connections', connect machine origin connections l = .ok connections' := by
  induction l generalizing connections with
  | nil => exact ⟨connections, rfl⟩
  | cons b l ih =>
    obtain ⟨ip, hip⟩ := Option.isSome_iff_exists.mp (h b List.mem_cons_self).addressed
    unfold connect
    rw [hip]
    exact ih fun b' hb' => h b' (List.mem_cons_of_mem b hb')

theorem onAllocate_connects {torus : WrapAround} (hid : id ∈ c.jobs)
    (hget : c.machines.get? name = some machine) (hne : boards.Nonempty)
    (hequips : ∀ b ∈ boards, Equips machine b) :
    wp (onAllocate id name boards periphery torus)
      (fun _ c' => Touches id c c' ∧ ∃ connections, (c'.job id).placement =
        (some machine, some boards, some periphery, some connections))
      (fun _ c' => Touches id c c' ∧ ∃ connections, (c'.job id).placement =
        (some machine, some boards, some periphery, some connections)) c := by
  obtain ⟨least, hleast⟩ := leastBoard_isOk hne
  obtain ⟨greatest, hgreatest⟩ := greatestBoard_isOk hne
  apply onAllocate_wp
  · exact fun hno => absurd hid hno
  · intro hno
    rw [hget] at hno
    cases hno
  · intro _ _ _ _ hmin
    rw [hleast] at hmin
    cases hmin
  · intro _ _ _ _ hmax
    rw [hgreatest] at hmax
    cases hmax
  · intro machine' origin _ _ _ hget' _ _ hip
    obtain rfl := Option.some.inj (hget.symm.trans hget')
    have hconnect : ∃ connections, connect machine origin Dict.empty (c.boardOrder.list boards) =
        .ok connections := connect_isOk fun b hb => hequips b ((c.boardOrder.mem boards b).mp hb)
    obtain ⟨connections, hconnect⟩ := hconnect
    rw [hconnect] at hip
    cases hip
  · intro machine' origin top connections c' hl ha
    obtain rfl := Option.some.inj (hget.symm.trans hl.registered)
    have hplacement : (c'.job id).placement =
        (some machine, some boards, some periphery, some connections) := by
      unfold Job.placement
      rw [ha.allocatedMachine, ha.boards, ha.periphery, ha.connections]
    apply (setJobPowerAndLinks_touches.and setJobPowerAndLinks_placement).mono
    · exact fun _ c'' ⟨ht, hp⟩ => ⟨ha.toTouches.trans ht, _, (hp id).trans hplacement⟩
    · exact fun _ c'' ⟨ht, hp⟩ => ⟨ha.toTouches.trans ht, _, (hp id).trans hplacement⟩

theorem locate_isOk {controllers : Dict (ℤ × ℤ) ℕ} {b : Board} (h : Equips machine b)
    (hframed : ∀ frame, (controllers.get? frame).isSome ↔ (machine.bmpIps.get? frame).isSome) :
    ∃ place, locate machine controllers b = .ok place := by
  obtain ⟨l, hl⟩ := Option.isSome_iff_exists.mp h.located
  obtain ⟨hostname, hbmp⟩ := machine.framed_get hl
  have hsome := (hframed (l.1, l.2.1)).mpr (hbmp ▸ rfl)
  obtain ⟨controller, hcontroller⟩ := Option.isSome_iff_exists.mp hsome
  unfold locate
  rw [hl]
  dsimp only
  rw [hcontroller]
  exact ⟨_, rfl⟩

theorem powerCommands_isOk {controllers : Dict (ℤ × ℤ) ℕ} {power : Bool}
    {commands : Dict ℕ AtomicRequests} {l : List Board}
    (h : ∀ b ∈ l, ∃ place, locate machine controllers b = .ok place) :
    ∃ commands', powerCommands machine controllers id power commands l = .ok commands' := by
  induction l generalizing commands with
  | nil => exact ⟨commands, rfl⟩
  | cons b l ih =>
    obtain ⟨place, hplace⟩ := h b List.mem_cons_self
    unfold powerCommands
    rw [hplace]
    exact ih fun b' hb' => h b' (List.mem_cons_of_mem b hb')

theorem linkCommands_isOk {controllers : Dict (ℤ × ℤ) ℕ} {enable : Bool}
    {commands : Dict ℕ AtomicRequests} {l : List BoardLink}
    (h : ∀ p ∈ l, ∃ place, locate machine controllers p.1 = .ok place) :
    ∃ commands', linkCommands machine controllers id enable commands l = .ok commands' := by
  induction l generalizing commands with
  | nil => exact ⟨commands, rfl⟩
  | cons p l ih =>
    obtain ⟨place, hplace⟩ := h p List.mem_cons_self
    unfold linkCommands
    rw [hplace]
    exact ih fun p' hp' => h p' (List.mem_cons_of_mem p hp')

theorem frameCommands_isOk {controllers : Dict (ℤ × ℤ) ℕ} {power : Bool} {linkEnable : Option Bool}
    (hmachine : (c.job id).allocatedMachine = some machine)
    (hcontrollers : c.bmpControllers.get? machine.name = some controllers)
    (hboards : (c.job id).boards = some boards) (hperiphery : (c.job id).periphery = some periphery)
    (hb : ∀ b ∈ boards, ∃ place, locate machine controllers b = .ok place)
    (hl : ∀ l ∈ periphery, ∃ place, locate machine controllers l.1 = .ok place) :
    ∃ commands, c.frameCommands id power linkEnable = .ok commands := by
  have hpowers : ∃ powers, powerCommands machine controllers id power Dict.empty
      (c.boardOrder.list boards) = .ok powers :=
    powerCommands_isOk fun b h => hb b ((c.boardOrder.mem boards b).mp h)
  obtain ⟨powers, hpowers⟩ := hpowers
  unfold frameCommands
  simp only [hmachine, hcontrollers, hboards, hpowers, hperiphery]
  cases linkEnable with
  | none => exact ⟨powers, rfl⟩
  | some enable =>
    exact linkCommands_isOk fun p hp => hl p ((c.linkOrder.mem periphery p).mp hp)

structure Equipped (t : JobQueue × Controller) : Prop where
  stocked : ∀ name machine m, t.2.machines.get? name = some machine →
    t.1.machines.get? name = some m → Stocked (Equips machine) (t.1.machine m).allocator
  equipped : ∀ id machine, (t.2.job id).allocatedMachine = some machine →
    ∃ boards periphery connections, (t.2.job id).placement =
        (some machine, some boards, some periphery, some connections) ∧
      (∀ b ∈ boards, Equips machine b) ∧ ∀ l ∈ periphery, l.1 ∈ boards

namespace Equipped

theorem congr (h : Equipped (q, c)) (hq : ∀ name, q'.machines.get? name = q.machines.get? name)
    (ha : ∀ m, (q'.machine m).allocator = (q.machine m).allocator)
    (hm : ∀ name, c'.machines.get? name = c.machines.get? name)
    (hp : ∀ k, (c'.job k).placement = (c.job k).placement) : Equipped (q', c') where
  stocked name machine m hget hgetq := by
    dsimp only at hget hgetq ⊢
    rw [hm] at hget
    rw [hq] at hgetq
    rw [ha]
    exact h.stocked name machine m hget hgetq
  equipped id machine hmachine := by
    dsimp only at hmachine ⊢
    rw [hp]
    exact h.equipped id machine (by rw [← allocatedMachine_of_placement (hp id)]; exact hmachine)

theorem view (h : Equipped t) (hv : SameView t t') : Equipped t' :=
  Equipped.congr (q := t.1) (c := t.2) h hv.queued hv.allocator hv.machines hv.placement

theorem setAllocator {a : Allocator} (h : Equipped (q, c)) (hr : Roster depth (q, c))
    (hget : c.machines.get? (q.machine m).name = some machine)
    (ha : Stocked (Equips machine) a) : Equipped (q.setAllocator m a, c) := by
  refine ⟨fun name machine' m' hget' hgetq => ?_, h.equipped⟩
  dsimp only at hget' hgetq ⊢
  rw [machine_setAllocator]
  split
  · next heq =>
    subst heq
    rw [← (hr.linked.names name m' hgetq).1, hget] at hget'
    obtain rfl := Option.some.inj hget'
    exact ha
  · exact h.stocked name machine' m' hget' hgetq

theorem placed {connections : Dict (ℤ × ℤ) String} (h : Equipped (q, c)) (ht : Touches id c c')
    (hplacement : (c'.job id).placement =
      (some machine, some boards, some periphery, some connections))
    (hb : ∀ b ∈ boards, Equips machine b) (hl : ∀ l ∈ periphery, l.1 ∈ boards) :
    Equipped (q, c') := by
  refine ⟨fun name machine' m hget hgetq => ?_, fun k machine' hmachine => ?_⟩
  · dsimp only at hget
    rw [ht.machines] at hget
    exact h.stocked name machine' m hget hgetq
  · dsimp only at hmachine ⊢
    by_cases hk : k = id
    · subst hk
      have hself : (c'.job k).allocatedMachine = some machine := congrArg Prod.fst hplacement
      obtain rfl := Option.some.inj (hself.symm.trans hmachine)
      exact ⟨boards, periphery, connections, hplacement, hb, hl⟩
    · rw [ht.job k hk] at hmachine ⊢
      exact h.equipped k machine' hmachine

theorem enlisted {owner : String} {alive : Option Keepalive} {host : Option String} {reads : ℕ}
    (h : Equipped (q, c)) :
    Equipped (q, Controller.createdJob { c with nextId := c.nextId + 1, reads := reads } c.nextId
      owner alive host) := by
  refine ⟨h.stocked, fun k machine hmachine => ?_⟩
  dsimp only at hmachine ⊢
  rw [job_createdJob] at hmachine ⊢
  split at hmachine
  · cases hmachine
  · next hk =>
    rw [if_neg hk]
    exact h.equipped k machine hmachine

theorem changed (h : Equipped (q, c)) (ha : Agreed (q, c)) (hr : Roster depth (q, c))
    (hold : c.machines.get? name = some old) (hm : q.machines.get? name = some m)
    (halike : old.Alike new) :
    Equipped (q.setMachine m ((q.machine m).modified (some new.tags) (some new.deadBoards)
      (some new.deadLinks)), { c with machines := c.machines.set name new }) := by
  refine ⟨fun name' machine m' hget hgetq => ?_, h.equipped⟩
  dsimp only at hget ⊢
  change q.machines.get? name' = some m' at hgetq
  rw [Dict.get?_set] at hget
  rw [machine_setMachine]
  split at hget
  · next heq =>
    cases hget
    rw [← heq, hm] at hgetq
    cases hgetq
    rw [if_pos rfl]
    have hdescribed := ha.described name old m hold hm
    dsimp only at hdescribed
    apply ((h.stocked name old m hold hm).mono fun b hb => hb.alike halike).reconfigured
    intro b hb hd
    rw [hdescribed.width, hdescribed.height, halike.width, halike.height] at hb
    exact equips_works hb hd
  · next hne =>
    have hm' : m' ≠ m := by
      intro heq
      rw [heq] at hgetq
      exact hne ((hr.linked.names name m hm).1.symm.trans (hr.linked.names name' m hgetq).1)
    rw [if_neg hm']
    exact h.stocked name' machine m' hget hgetq

theorem added (h : Equipped (q, c)) (hr : Roster depth (q, c)) (hw : 1 ≤ new.width)
    (hh : 1 ≤ new.height) :
    Equipped (q.added name new.width new.height (some new.tags) new.deadBoards new.deadLinks,
      c.registered name new) := by
  obtain ⟨-, -, -, hjob⟩ := registered_jobs c name new
  refine ⟨fun name' machine m hget hgetq => ?_, fun k machine hmachine => ?_⟩
  · dsimp only at hget ⊢
    change (q.machines.set name _).get? name' = some m at hgetq
    rw [registered_machines, Dict.get?_set] at hget
    rw [Dict.get?_set] at hgetq
    change Stocked _ ((q.setMachine q.nextMachine _).machine m).allocator
    rw [machine_setMachine]
    split at hget
    · next heq =>
      rw [if_pos heq] at hgetq
      cases hget
      cases hgetq
      rw [if_pos rfl]
      exact .new hw hh fun b hb hd => equips_works hb hd
    · next hne =>
      rw [if_neg hne] at hgetq
      rw [if_neg (hr.linked.names name' m hgetq).2.ne]
      exact h.stocked name' machine m hget hgetq
  · dsimp only at hmachine ⊢
    rw [hjob] at hmachine ⊢
    exact h.equipped k machine hmachine

end Equipped

/-- A machine has at least one triad. -/
def Sized (machine : Configuration.Machine) : Prop := 1 ≤ machine.width ∧ 1 ≤ machine.height

theorem sized_oneBoard : (Operation.setMachines oneBoard).Assigns Sized := by
  intro name new hnew
  change (Dict.empty.set "m" _).get? name = some new at hnew
  rw [Dict.get?_set] at hnew
  split at hnew
  · cases hnew
    exact ⟨le_rfl, le_rfl⟩
  · cases hnew

structure Furnished (t : JobQueue × Controller) : Prop extends Hosting t, Equipped t

theorem equipped_alloc (hr : Roster depth (q, c)) (h : Furnished (q, c))
    (hm : m ∈ q.machines.values) (hp : (q.job j).pending = true) :
    wp (Allocator.alloc (q.job j).request) (fun res a =>
      match res with
      | none => Equipped (q.setAllocator m a, c)
      | some al =>
        wp (onAllocate (q.job j).id (q.machine m).name al.boards al.periphery al.torus)
          (fun _ c' => Equipped ((q.setAllocator m a).placed j m al.id, c'))
          (fun _ c' => Equipped ((q.setAllocator m a).placed j m al.id, c')) c)
      (fun _ a => Equipped (q.setAllocator m a, c)) (q.machine m).allocator := by
  obtain ⟨hq, machine, hget⟩ := h.toAgreed.known hr hm
  apply (alloc_stocked (h.stocked _ machine m hget hq) _).mono _
    fun _ a ha => h.toEquipped.setAllocator hr hget ha
  intro res a ⟨ha, hprovides⟩
  have hset := h.toEquipped.setAllocator hr hget ha
  cases res with
  | none => exact hset
  | some al =>
    obtain ⟨hne, hequips, hperiphery⟩ := hprovides al rfl
    have hplaced (c' : Controller) (ht : Touches (q.job j).id c c')
        (hplacement : ∃ connections, (c'.job (q.job j).id).placement =
          (some machine, some al.boards, some al.periphery, some connections)) :
        Equipped ((q.setAllocator m a).placed j m al.id, c') := by
      obtain ⟨connections, hplacement⟩ := hplacement
      exact (hset.placed ht hplacement hequips hperiphery).congr (fun _ => rfl) (fun _ => rfl)
        (fun _ => rfl) fun _ => rfl
    apply (onAllocate_connects (hr.pending j hp).1 hget hne hequips).mono
    · exact fun _ c' ⟨ht, hplacement⟩ => hplaced c' ht hplacement
    · exact fun _ c' ⟨ht, hplacement⟩ => hplaced c' ht hplacement

theorem equipped_rules : KeepRules True Sized Furnished Equipped where
  agreed _ h := h.toAgreed
  numbered q c h := hosting_rules.numbered q c h.toHosting
  view _ _ h hv := h.toEquipped.view hv
  alloc _ _ _ _ _ hr h hm hp := equipped_alloc hr h hm hp
  checked depth q c m hr h hm := by
    obtain ⟨hq, machine, hget⟩ := h.toAgreed.known hr hm
    apply (checkFree_stocked (h.stocked _ machine m hget hq)).mono
    · exact fun _ a ha => h.toEquipped.setAllocator hr hget ha
    · exact fun _ a ha => h.toEquipped.setAllocator hr hget ha
  cancelled _ _ _ _ _ _ h _ :=
    h.toEquipped.congr (fun _ => rfl) (fun _ => rfl) (fun _ => rfl) fun _ => rfl
  retired _ _ _ _ _ _ h _ :=
    h.toEquipped.congr (fun _ => rfl) (fun _ => rfl) (fun _ => rfl) fun _ => rfl
  freed depth q c id j m a b hr h _ _ _ hm hrun := by
    obtain ⟨hq, machine, hget⟩ := h.toAgreed.known hr hm
    have hb := wp_of_eq_ok (free_stocked (h.stocked _ machine m hget hq) a) hrun
    exact (h.toEquipped.setAllocator hr hget hb).congr (fun _ => rfl) (fun _ => rfl)
      (fun _ => rfl) fun _ => rfl
  enlisted _ _ _ _ _ _ _ _ _ h := h.toEquipped.enlisted
  created _ _ _ _ _ _ _ _ _ _ _ h _ :=
    h.toEquipped.enlisted.congr (fun _ => rfl) (fun _ => rfl) (fun _ => rfl) fun _ => rfl
  removed _ _ _ _ h _ _ _ := ⟨fun name' machine m' hget hgetq =>
    h.stocked name' machine m' (Dict.get?_of_erase hget) (Dict.get?_of_erase hgetq), h.equipped⟩
  changed _ _ _ _ _ _ _ hr h hold hm _ halike _ :=
    h.toEquipped.changed h.toAgreed hr hold hm halike
  added _ _ _ _ _ hr h _ _ hsized := h.toEquipped.added hr hsized.1 hsized.2

theorem furnished_rules : KeepRules True Sized Furnished Furnished :=
  ((hosting_rules.mono (fun hlost => hlost) (fun _ _ => trivial) (fun _ h => h.toHosting)
    fun _ h => h).and equipped_rules).mono (fun hlost => hlost) (fun _ h => h) (fun _ h => h)
      fun _ h => ⟨h.1, h.2⟩

theorem start_furnished (s : Setup) : Furnished s.start where
  toHosting := start_hosting s
  stocked _ _ _ := nofun
  equipped _ _ := nofun

/-- Whatever is looked up about the boards of a job is found: for a job that is live, also by each
command. -/
structure Found (c : Controller) (id : ℕ) (machine : Configuration.Machine) (boards : Finset Board)
    (periphery : Finset BoardLink) : Prop where
  connected : ∃ connections, (c.job id).placement =
    (some machine, some boards, some periphery, some connections)
  addressed : ∀ b ∈ boards, (machine.spinnakerIps.get? b).isSome
  located : ∀ b ∈ boards, (machine.boardLocations.get? b).isSome
  linked : ∀ l ∈ periphery, (machine.boardLocations.get? l.1).isSome
  wired : id ∈ c.jobs → ∃ controllers, c.bmpControllers.get? machine.name = some controllers ∧
    (∀ b ∈ boards, ∃ place, locate machine controllers b = .ok place) ∧
    ∀ l ∈ periphery, ∃ place, locate machine controllers l.1 = .ok place
  commanded : id ∈ c.jobs → ∀ power linkEnable,
    ∃ commands, c.frameCommands id power linkEnable = .ok commands

theorem Furnished.found (h : Furnished t)
    (hmachine : (t.2.job id).allocatedMachine = some machine) :
    ∃ boards periphery, Found t.2 id machine boards periphery := by
  obtain ⟨boards, periphery, connections, hplacement, hequips, hlinks⟩ :=
    h.equipped id machine hmachine
  have hcontrollers (hid : id ∈ t.2.jobs) :
      ∃ controllers, t.2.bmpControllers.get? machine.name = some controllers ∧
        ∀ b ∈ boards, ∃ place, locate machine controllers b = .ok place := by
    obtain ⟨_, _, current, _, _, _, hcurrent, halike⟩ := h.hosted id hid machine hmachine
    have hwired := (h.wired machine.name).mpr (hcurrent ▸ rfl)
    obtain ⟨controllers, hget⟩ := Option.isSome_iff_exists.mp hwired
    refine ⟨controllers, hget, fun b hb => locate_isOk (hequips b hb) fun frame => ?_⟩
    rw [h.framed machine.name current controllers hcurrent hget frame, halike.bmpIps]
  refine ⟨boards, periphery, ⟨connections, hplacement⟩, fun b hb => (hequips b hb).addressed,
    fun b hb => (hequips b hb).located, fun l hl => (hequips l.1 (hlinks l hl)).located,
    fun hid => ?_, fun hid power linkEnable => ?_⟩
  · obtain ⟨controllers, hget, hplace⟩ := hcontrollers hid
    exact ⟨controllers, hget, hplace, fun l hl => hplace l.1 (hlinks l hl)⟩
  · obtain ⟨controllers, hget, hplace⟩ := hcontrollers hid
    have hboards : (t.2.job id).boards = some boards := congrArg (·.2.1) hplacement
    have hperiphery : (t.2.job id).periphery = some periphery := congrArg (·.2.2.1) hplacement
    exact frameCommands_isOk hmachine hget hboards hperiphery hplace
      fun l hl => hplace l.1 (hlinks l hl)

/-- Whatever is done, as long as machines have boards, all that is ever looked up about the boards
that a job has been told is found. -/
theorem lookups_found {s : Setup}
    (h : ((system s).restrict fun _ op => op.Assigns Sized).Reachable t)
    (hb : (t.2.job id).boards = some boards) :
    ∃ machine periphery, Found t.2 id machine boards periphery := by
  have hreachable : ((system s).restrict fun _ op =>
      (op.Barred → True) ∧ op.Assigns Sized).Reachable t :=
    h.mono fun _ _ hassigns => ⟨fun _ => trivial, hassigns⟩
  have ht := (furnished_rules.reachable (start_furnished s) hreachable).2
  have hne : (t.2.job id).boards ≠ none := by
    rw [hb]
    exact Option.some_ne_none boards
  obtain ⟨machine, hmachine⟩ := Option.ne_none_iff_exists'.mp ((ht.boards id).mp hne)
  obtain ⟨boards', periphery, hfound⟩ := ht.found hmachine
  obtain ⟨connections, hplacement⟩ := hfound.connected
  have hboards : (t.2.job id).boards = some boards' := congrArg (·.2.1) hplacement
  obtain rfl := Option.some.inj (hboards.symm.trans hb)
  exact ⟨machine, periphery, hfound⟩

theorem lookups_found_poweringOn :
    ∃ machine periphery, Found (runs Setup.quiet.start poweringOn).2 1 machine {(0, 0, 0)}
      periphery := by
  have h : ((system Setup.quiet).restrict fun _ op => op.Assigns Sized).Reachable
      (runs Setup.quiet.start poweringOn) := by
    apply reachable_runs (.start rfl)
    exact ⟨sized_oneBoard, trivial, trivial⟩
  exact lookups_found h (by decide +kernel)

end SpallocServer.Controller
