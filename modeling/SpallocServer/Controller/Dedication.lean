import SpallocServer.Controller.Counter

namespace SpallocServer.Controller

open Foundation Prog

variable {c c' : Controller} {id b b' : ℕ} {n : ℤ} {name name' : String} {frame frame' : ℤ × ℤ}
  {machine old new : Configuration.Machine}

def Controls (c : Controller) (b : ℕ) (name : String) (frame : ℤ × ℤ) : Prop :=
  ∃ controllers, c.bmpControllers.get? name = some controllers ∧ controllers.get? frame = some b

/-- The board with this number is reached by the controller, and is one of the job. -/
def Aims (c : Controller) (id b : ℕ) (n : ℤ) : Prop :=
  ∃ machine controllers board, (c.job id).allocatedMachine = some machine ∧
    c.bmpControllers.get? machine.name = some controllers ∧ board ∈ c.Concerned id ∧
    locate machine controllers board = .ok (b, n)

/-- Nothing is new but requests of the job. -/
structure Sends (id : ℕ) (c c' : Controller) : Prop where
  machines : c'.machines = c.machines
  bmpControllers : c'.bmpControllers = c.bmpControllers
  requests : ∀ b, ∀ r ∈ (c'.bmp b).requests,
    r ∈ (c.bmp b).requests ∨ r.onDone = id ∧ ∀ n ∈ r.boards, c'.Aims id b n

theorem concerned_congr (hb : (c'.job id).boards = (c.job id).boards)
    (hp : (c'.job id).periphery = (c.job id).periphery) : c'.Concerned id = c.Concerned id := by
  unfold Concerned
  rw [hb, hp]

theorem Sends.of_quiet (hm : c'.machines = c.machines)
    (hc : c'.bmpControllers = c.bmpControllers) (hb : c'.bmp = c.bmp) : Sends id c c' :=
  ⟨hm, hc, fun b r hr => .inl (by rwa [hb] at hr)⟩

theorem Sends.after {c'' : Controller} (h : Sends id c' c'') (hm : c'.machines = c.machines)
    (hc : c'.bmpControllers = c.bmpControllers) (hb : c'.bmp = c.bmp) : Sends id c c'' :=
  ⟨h.machines.trans hm, h.bmpControllers.trans hc, fun b r hr =>
    (h.requests b r hr).imp_left fun hold => by rwa [hb] at hold⟩

theorem setJobPowerAndLinks_sends {power : Bool} {linkEnable : Option Bool} :
    wp (setJobPowerAndLinks id power linkEnable) (fun _ => Sends id c) (fun _ _ => True) c := by
  apply setJobPowerAndLinks_wp
  · intro commands hcommands
    obtain ⟨machine, controllers, boards, hof⟩ := frameCommands_spec hcommands
    have hself : (c.commanded id power commands.entries).job id = _ := job_commanded power _
    rw [if_pos rfl] at hself
    refine ⟨rfl, rfl, fun b r hr => ?_⟩
    change r ∈ (c.bmp b).requests ++ (commands.entries.filter (·.1 = b)).map Prod.snd at hr
    obtain hr | hr := List.mem_append.mp hr
    · exact .inl hr
    obtain ⟨p, hp, rfl⟩ := List.mem_map.mp hr
    obtain ⟨hp, hpb⟩ := List.mem_filter.mp hp
    have hget : commands.get? b = some p.2 := by
      rw [← of_decide_eq_true hpb]
      exact Dict.get?_eq_some.mpr hp
    refine .inr ⟨hof.addressed.onDone b p.2 hget, fun n hn => ?_⟩
    obtain ⟨board, hboard, hlocate⟩ := hof.addressed.boards b p.2 hget n hn
    refine ⟨machine, controllers, board, ?_, hof.wired, ?_, hlocate⟩
    · rw [hself]
      exact hof.placed
    · rwa [concerned_congr (c := c) (by rw [hself]) (by rw [hself])]
  · exact fun _ _ => trivial
  · exact fun _ _ _ _ _ => trivial

theorem onAllocate_sends {boards : Finset Board} {periphery : Finset BoardLink}
    {torus : WrapAround} :
    wp (onAllocate id name boards periphery torus) (fun _ => Sends id c) (fun _ _ => True) c := by
  apply onAllocate_wp
  · exact fun _ => trivial
  · exact fun _ => trivial
  · exact fun _ _ _ _ _ => trivial
  · exact fun _ _ _ _ _ => trivial
  · exact fun _ _ _ _ _ _ _ _ _ => trivial
  · intro machine origin top connections c' _ ha
    exact setJobPowerAndLinks_sends.mono
      (fun _ _ hs => hs.after ha.machines ha.bmpControllers ha.bmp) fun _ _ _ => trivial

theorem onFree_sends {reason : Option String} :
    wp (onFree id reason) (fun _ => Sends id c) (fun _ _ => True) c := by
  apply onFree_wp
  · exact fun _ => trivial
  · exact fun _ _ => trivial
  intro machine _ _
  apply teardownJob_wp
  · exact fun _ => trivial
  · exact fun _ _ => .of_quiet rfl rfl rfl
  · intro _ _
    exact setJobPowerAndLinks_sends.mono (fun _ _ hs => hs.after rfl rfl rfl) fun _ _ _ => trivial

abbrev Loans := String → ℕ → Board → Prop

def Loans.Exclusive (L : Loans) : Prop :=
  ∀ name id id' board, L name id board → L name id' board → id = id'

structure Dedicated (L : Loans) (c : Controller) : Prop where
  apart : ∀ b name frame name' frame', c.Controls b name frame → c.Controls b name' frame' →
    name = name' ∧ frame = frame'
  owed : ∀ b name frame machine, c.Controls b name frame → c.machines.get? name = some machine →
    ∀ r ∈ (c.bmp b).requests, ∀ n ∈ r.boards, ∃ board, L name r.onDone board ∧
      machine.boardLocations.get? board = some (frame.1, frame.2, n)
  sharp : ∀ b, ∀ r ∈ (c.bmp b).requests, ∀ r' ∈ (c.bmp b).requests, ∀ n ∈ r.boards,
    n ∈ r'.boards → r.onDone = r'.onDone

theorem locate_ok {controllers : Dict (ℤ × ℤ) ℕ} {board : Board}
    (h : locate machine controllers board = .ok (b, n)) :
    ∃ frame : ℤ × ℤ, machine.boardLocations.get? board = some (frame.1, frame.2, n) ∧
      controllers.get? frame = some b := by
  unfold locate at h
  split at h
  · cases h
  next cabinet frame number hget =>
  split at h
  · cases h
  next controller hcontroller =>
  cases h
  exact ⟨(cabinet, frame), hget, hcontroller⟩

namespace Dedicated

variable {L L' : Loans}

theorem congr (h : Dedicated L c)
    (hc : ∀ b name frame, c'.Controls b name frame → c.Controls b name frame)
    (hm : ∀ b name frame machine, c'.Controls b name frame → c'.machines.get? name = some machine →
      ∃ old, c.machines.get? name = some old ∧ old.boardLocations.Same machine.boardLocations)
    (hr : ∀ b, ∀ r ∈ (c'.bmp b).requests, r ∈ (c.bmp b).requests) : Dedicated L c' := by
  refine ⟨fun b name frame name' frame' h1 h2 =>
    h.apart b name frame name' frame' (hc _ _ _ h1) (hc _ _ _ h2),
    fun b name frame machine hcontrols hget r hreq n hn => ?_,
    fun b r hreq r' hreq' => h.sharp b r (hr b r hreq) r' (hr b r' hreq')⟩
  obtain ⟨old, hold, hsame⟩ := hm b name frame machine hcontrols hget
  obtain ⟨board, hL, hlocation⟩ :=
    h.owed b name frame old (hc _ _ _ hcontrols) hold r (hr b r hreq) n hn
  exact ⟨board, hL, (hsame board).symm.trans hlocation⟩

theorem same (h : Dedicated L c) (hm : c'.machines = c.machines)
    (hc : c'.bmpControllers = c.bmpControllers) (hb : c'.bmp = c.bmp) : Dedicated L c' := by
  apply h.congr
  · intro b name frame hcontrols
    unfold Controls at hcontrols ⊢
    rwa [hc] at hcontrols
  · intro b name frame machine _ hget
    rw [hm] at hget
    exact ⟨machine, hget, fun _ => rfl⟩
  · intro b r hr
    rwa [hb] at hr

theorem lend (h : Dedicated L c)
    (hL : ∀ b name frame, c.Controls b name frame → ∀ r ∈ (c.bmp b).requests, ∀ board,
      L name r.onDone board → L' name r.onDone board) : Dedicated L' c := by
  refine ⟨h.apart, fun b name frame machine hcontrols hget r hreq n hn => ?_, h.sharp⟩
  obtain ⟨board, hboard, hlocation⟩ := h.owed b name frame machine hcontrols hget r hreq n hn
  exact ⟨board, hL b name frame hcontrols r hreq board hboard, hlocation⟩

theorem sends (h : Dedicated L c) (hs : Sends id c c') (hexclusive : L.Exclusive)
    (hmine : ∀ machine, (c'.job id).allocatedMachine = some machine →
      ∃ current, c'.machines.get? machine.name = some current ∧
        machine.boardLocations.Same current.boardLocations ∧
        ∀ board ∈ c'.Concerned id, L machine.name id board) : Dedicated L c' := by
  have hcontrols (b : ℕ) (name : String) (frame : ℤ × ℤ) :
      c'.Controls b name frame ↔ c.Controls b name frame := by
    unfold Controls
    rw [hs.bmpControllers]
  -- A board that the job aims at is one that it has, in the place where it is registered.
  have haim (b : ℕ) (n : ℤ) (haims : c'.Aims id b n) : ∃ name frame current board,
      c'.Controls b name frame ∧ c'.machines.get? name = some current ∧ L name id board ∧
        current.boardLocations.get? board = some (frame.1, frame.2, n) := by
    obtain ⟨machine, controllers, board, hmachine, hget, hboard, hlocate⟩ := haims
    obtain ⟨frame, hlocation, hb⟩ := locate_ok hlocate
    obtain ⟨current, hcurrent, hsame, hL⟩ := hmine machine hmachine
    exact ⟨machine.name, frame, current, board, ⟨controllers, hget, hb⟩, hcurrent, hL board hboard,
      (hsame board).symm.trans hlocation⟩
  have howed (b : ℕ) (name : String) (frame : ℤ × ℤ) (machine : Configuration.Machine)
      (hc : c'.Controls b name frame) (hget : c'.machines.get? name = some machine)
      (r : AtomicRequests) (hr : r ∈ (c'.bmp b).requests) (n : ℤ) (hn : n ∈ r.boards) :
      ∃ board, L name r.onDone board ∧
        machine.boardLocations.get? board = some (frame.1, frame.2, n) := by
    obtain hold | ⟨rfl, haims⟩ := hs.requests b r hr
    · rw [hs.machines] at hget
      exact h.owed b name frame machine ((hcontrols _ _ _).mp hc) hget r hold n hn
    · obtain ⟨name', frame', current, board, hc', hcurrent, hL, hlocation⟩ := haim b n (haims n hn)
      obtain ⟨rfl, rfl⟩ := h.apart b name frame name' frame' ((hcontrols _ _ _).mp hc)
        ((hcontrols _ _ _).mp hc')
      obtain rfl := Option.some.inj (hget.symm.trans hcurrent)
      exact ⟨board, hL, hlocation⟩
  -- A board of a request of the job has no other job.
  have hown (b : ℕ) (n : ℤ) (haims : c'.Aims id b n) (r : AtomicRequests)
      (hr : r ∈ (c'.bmp b).requests) (hn : n ∈ r.boards) : r.onDone = id := by
    obtain ⟨name, frame, current, board, hc, hcurrent, hL, hlocation⟩ := haim b n haims
    obtain ⟨board', hL', hlocation'⟩ := howed b name frame current hc hcurrent r hr n hn
    obtain rfl := Configuration.Machine.location_injective hlocation hlocation'
    exact hexclusive name r.onDone id board hL' hL
  refine ⟨fun b name frame name' frame' h1 h2 => h.apart b name frame name' frame'
    ((hcontrols _ _ _).mp h1) ((hcontrols _ _ _).mp h2), howed, fun b r hr r' hr' n hn hn' => ?_⟩
  obtain hold | ⟨hid, haims⟩ := hs.requests b r hr
  · obtain hold' | ⟨hid', haims'⟩ := hs.requests b r' hr'
    · exact h.sharp b r hold r' hold' n hn hn'
    · rw [hid']
      exact hown b n (haims' n hn') r hr hn
  · rw [hid]
    exact (hown b n (haims n hn) r' hr' hn').symm

theorem unregistered (h : Dedicated L c)
    (hL : ∀ name' id board, name' ≠ name → L name' id board → L' name' id board) :
    Dedicated L' (c.unregistered name) := by
  have hcontrols (b : ℕ) (name' : String) (frame : ℤ × ℤ)
      (hc : (c.unregistered name).Controls b name' frame) :
      name' ≠ name ∧ c.Controls b name' frame := by
    obtain ⟨controllers, hget, hframe⟩ := hc
    change (c.bmpControllers.erase name).get? name' = some controllers at hget
    rw [Dict.get?_erase] at hget
    split at hget
    · cases hget
    · next hne => exact ⟨Ne.symm hne, controllers, hget, hframe⟩
  have hfewer : Dedicated L (c.unregistered name) :=
    h.congr (fun b name' frame hc => (hcontrols b name' frame hc).2)
      (fun b name' frame machine _ hget => ⟨machine, Dict.get?_of_erase hget, fun _ => rfl⟩)
      fun _ _ hr => hr
  exact hfewer.lend fun b name' frame hc r _ board hboard =>
    hL name' r.onDone board (hcontrols b name' frame hc).1 hboard

theorem changed (h : Dedicated L c) (hold : c.machines.get? name = some old)
    (halike : old.Alike new) :
    Dedicated L { c with machines := c.machines.set name new } := by
  refine h.congr (fun _ _ _ hc => hc) (fun b name' frame machine _ hget => ?_) fun _ _ hr => hr
  dsimp only at hget
  rw [Dict.get?_set] at hget
  split at hget
  · next heq =>
    cases hget
    exact ⟨old, heq ▸ hold, halike.boardLocations⟩
  · exact ⟨machine, hget, fun _ => rfl⟩

theorem wired {debt : ℕ → ℕ} (h : Dedicated L c) (hcounted : Counted debt c) (name : String)
    (frame : ℤ × ℤ) (hostname : String) : Dedicated L (c.wired name frame hostname) := by
  have hrequests (b : ℕ) (r : AtomicRequests)
      (hr : r ∈ ((c.wired name frame hostname).bmp b).requests) :
      b ≠ c.nextBmp ∧ r ∈ (c.bmp b).requests := by
    change r ∈ (Function.update c.bmp c.nextBmp (.new hostname) b).requests at hr
    by_cases hb : b = c.nextBmp
    · rw [hb, Function.update_self] at hr
      exact absurd hr List.not_mem_nil
    · rw [Function.update_of_ne hb] at hr
      exact ⟨hb, hr⟩
  have hcontrols (b : ℕ) (name' : String) (frame' : ℤ × ℤ)
      (hc : (c.wired name frame hostname).Controls b name' frame') :
      b = c.nextBmp ∧ name' = name ∧ frame' = frame ∨
        b < c.nextBmp ∧ c.Controls b name' frame' := by
    obtain ⟨controllers, hget, hframe⟩ := hc
    change (c.bmpControllers.set name _).get? name' = some controllers at hget
    rw [Dict.get?_set] at hget
    split at hget
    · next hname =>
      cases hget
      subst hname
      rw [Dict.get?_set] at hframe
      split at hframe
      · next hf => exact .inl ⟨(Option.some.inj hframe).symm, rfl, hf.symm⟩
      · cases hold : c.bmpControllers.get? name with
        | none =>
          rw [hold] at hframe
          cases hframe
        | some controllers =>
          rw [hold] at hframe
          exact .inr ⟨hcounted.known name controllers hold b (Dict.mem_values.mpr ⟨_, hframe⟩),
            controllers, hold, hframe⟩
    · exact .inr ⟨hcounted.known name' controllers hget b (Dict.mem_values.mpr ⟨_, hframe⟩),
        controllers, hget, hframe⟩
  refine ⟨fun b n f n' f' hc hc' => ?_, fun b n f machine hc hget r hr k hk => ?_,
    fun b r hr r' hr' => h.sharp b r (hrequests b r hr).2 r' (hrequests b r' hr').2⟩
  · obtain ⟨rfl, rfl, rfl⟩ | ⟨hlt, hc⟩ := hcontrols b n f hc
    · obtain ⟨-, rfl, rfl⟩ | ⟨hlt', -⟩ := hcontrols _ n' f' hc'
      · exact ⟨rfl, rfl⟩
      · exact absurd hlt' (lt_irrefl _)
    · obtain ⟨rfl, -⟩ | ⟨-, hc'⟩ := hcontrols b n' f' hc'
      · exact absurd hlt (lt_irrefl _)
      · exact h.apart b n f n' f' hc hc'
  · obtain ⟨hne, hr⟩ := hrequests b r hr
    obtain ⟨rfl, -⟩ | ⟨-, hc⟩ := hcontrols b n f hc
    · exact absurd rfl hne
    · exact h.owed b n f machine hc hget r hr k hk

theorem registered {debt : ℕ → ℕ} (h : Dedicated L c) (hcounted : Counted debt c)
    (hname : machine.name = name) : Dedicated L (c.registered name machine) := by
  subst hname
  apply And.right (a := Counted debt (c.registered machine.name machine))
  apply registered_induct (P := fun c => Counted debt c ∧ Dedicated L c)
  · have hcontrols (b : ℕ) (n : String) (frame : ℤ × ℤ) (hc : Controls { c with
        machines := c.machines.set machine.name machine
        bmpControllers := c.bmpControllers.set machine.name Dict.empty } b n frame) :
        machine.name ≠ n ∧ c.Controls b n frame := by
      obtain ⟨controllers, hget, hframe⟩ := hc
      dsimp only at hget
      rw [Dict.get?_set] at hget
      split at hget
      · cases hget
        cases hframe
      · next hne => exact ⟨hne, controllers, hget, hframe⟩
    refine ⟨hcounted.emptied machine.name machine.name machine,
      h.congr (fun b n frame hc => (hcontrols b n frame hc).2) (fun b n frame new hc hget => ?_)
        fun _ _ hr => hr⟩
    dsimp only at hget
    rw [Dict.get?_set_ne _ (hcontrols b n frame hc).1] at hget
    exact ⟨new, hget, fun _ => rfl⟩
  · exact fun c frame hostname hc =>
      ⟨hc.1.wired machine.name frame hostname, hc.2.wired hc.1 machine.name frame hostname⟩

end Dedicated

end SpallocServer.Controller
