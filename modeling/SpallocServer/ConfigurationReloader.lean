import SpallocServer.Controller.Standstill
import SpallocServer.Server.Clients

namespace SpallocServer

open Foundation Prog

/-- The configuration of a server, with what `Configuration.__new__` checks. -/
structure Configuration where
  machines : List Configuration.Machine
  port : ℤ
  ip : String
  timeoutCheckInterval : ℚ
  maxRetiredJobs : ℤ
  secondsBeforeFree : ℤ
  names : (machines.map (·.name)).Nodup
  bmpIps : (machines.flatMap (·.bmpIps.values)).Nodup
  spinnakerIps : (machines.flatMap (·.spinnakerIps.values)).Nodup

namespace Configuration

def unique (message : String → String) (used : Finset String) :
    List String → Except Error (Finset String)
  | [] => .ok used
  | text :: l =>
    if text ∈ used then .error (.valueError (message text))
    else unique message (insert text used) l

def nameUsed (name : String) : String := s!"Machine name '{name}' used multiple times."

def bmpIpUsed (ip : String) : String := s!"BMP IP '{ip}' used multiple times."

def spinnakerIpUsed (ip : String) : String := s!"SpiNNaker IP '{ip}' used multiple times."

def checkMachines (usedNames usedBmpIps usedSpinnakerIps : Finset String) :
    List Machine → Except Error Unit
  | [] => .ok ()
  | m :: machines => do
    let usedNames ← unique nameUsed usedNames [m.name]
    let usedBmpIps ← unique bmpIpUsed usedBmpIps m.bmpIps.values
    let usedSpinnakerIps ← unique spinnakerIpUsed usedSpinnakerIps m.spinnakerIps.values
    checkMachines usedNames usedBmpIps usedSpinnakerIps machines

variable {message : String → String} {used used' : Finset String} {l : List String}

theorem unique_ok (h : unique message used l = .ok used') :
    l.Nodup ∧ (∀ text ∈ l, text ∉ used) ∧ used' = used ∪ l.toFinset := by
  induction l generalizing used with
  | nil =>
    cases h
    exact ⟨List.nodup_nil, nofun, (Finset.union_empty _).symm⟩
  | cons text l ih =>
    unfold unique at h
    split at h
    · cases h
    · next hnew =>
      obtain ⟨hl, hapart, rfl⟩ := ih h
      refine ⟨List.nodup_cons.mpr ⟨fun hin => ?_, hl⟩, ?_, ?_⟩
      · exact hapart text hin (Finset.mem_insert_self _ _)
      · intro other hin
        obtain rfl | hin := List.mem_cons.mp hin
        · exact hnew
        · exact fun hold => hapart other hin (Finset.mem_insert_of_mem hold)
      · rw [List.toFinset_cons, Finset.insert_union, Finset.union_insert]

theorem nodup_flatMap {α : Type} (f : α → List String) {a : α} {l : List α} {used : Finset String}
    (ha : (f a).Nodup ∧ ∀ text ∈ f a, text ∉ used)
    (hl : (l.flatMap f).Nodup ∧ ∀ text ∈ l.flatMap f, text ∉ used ∪ (f a).toFinset) :
    ((a :: l).flatMap f).Nodup ∧ ∀ text ∈ (a :: l).flatMap f, text ∉ used := by
  rw [List.flatMap_cons]
  constructor
  · rw [List.nodup_append]
    refine ⟨ha.1, hl.1, fun text hin other hin' he => ?_⟩
    subst he
    exact hl.2 text hin' (Finset.mem_union_right _ (List.mem_toFinset.mpr hin))
  · intro text hin
    obtain hin | hin := List.mem_append.mp hin
    · exact ha.2 text hin
    · exact fun hold => hl.2 text hin (Finset.mem_union_left _ hold)

theorem checkMachines_ok {usedNames usedBmpIps usedSpinnakerIps : Finset String}
    {machines : List Machine}
    (h : checkMachines usedNames usedBmpIps usedSpinnakerIps machines = .ok ()) :
    ((machines.flatMap fun m => [m.name]).Nodup ∧
      ∀ text ∈ machines.flatMap fun m => [m.name], text ∉ usedNames) ∧
    ((machines.flatMap (·.bmpIps.values)).Nodup ∧
      ∀ text ∈ machines.flatMap (·.bmpIps.values), text ∉ usedBmpIps) ∧
    ((machines.flatMap (·.spinnakerIps.values)).Nodup ∧
      ∀ text ∈ machines.flatMap (·.spinnakerIps.values), text ∉ usedSpinnakerIps) := by
  induction machines generalizing usedNames usedBmpIps usedSpinnakerIps with
  | nil => exact ⟨⟨List.nodup_nil, nofun⟩, ⟨List.nodup_nil, nofun⟩, ⟨List.nodup_nil, nofun⟩⟩
  | cons m machines ih =>
    unfold checkMachines at h
    obtain ⟨names, hnames, h⟩ := bind_eq_ok.mp h
    obtain ⟨bmpIps, hbmpIps, h⟩ := bind_eq_ok.mp h
    obtain ⟨spinnakerIps, hspinnakerIps, h⟩ := bind_eq_ok.mp h
    obtain ⟨hnew, hapart, rfl⟩ := unique_ok hnames
    obtain ⟨hnewBmp, hapartBmp, rfl⟩ := unique_ok hbmpIps
    obtain ⟨hnewIps, hapartIps, rfl⟩ := unique_ok hspinnakerIps
    obtain ⟨ihnames, ihbmpIps, ihspinnakerIps⟩ := ih h
    exact ⟨nodup_flatMap (a := m) (fun m => [m.name]) ⟨hnew, hapart⟩ ihnames,
      nodup_flatMap (a := m) (·.bmpIps.values) ⟨hnewBmp, hapartBmp⟩ ihbmpIps,
      nodup_flatMap (a := m) (·.spinnakerIps.values) ⟨hnewIps, hapartIps⟩ ihspinnakerIps⟩

def new (machines : List Machine) (port : ℤ) (ip : String) (timeoutCheckInterval : ℚ)
    (maxRetiredJobs : ℤ) (secondsBeforeFree : ℤ) : Except Error Configuration :=
  match h : checkMachines ∅ ∅ ∅ machines with
  | .error e => .error e
  | .ok () => .ok
    { machines, port, ip, timeoutCheckInterval, maxRetiredJobs, secondsBeforeFree
      names := List.map_eq_flatMap (f := Machine.name) ▸ (checkMachines_ok h).1.1
      bmpIps := (checkMachines_ok h).2.1.1
      spinnakerIps := (checkMachines_ok h).2.2.1 }

/-- `OrderedDict((m.name, m) for m in machines)` -/
def byName (machines : List Machine) : Controller.Machines :=
  machines.foldl (fun d m =>
    { dict := d.dict.set m.name m
      named := by
        intro name machine h
        rw [Dict.get?_set] at h
        split at h
        · next hn =>
          cases h
          exact hn
        · exact d.named name machine h }) ⟨Dict.empty, Controller.Machines.named_empty⟩

end Configuration

/-- What there is about a server when it reads its configuration. -/
structure Surroundings where
  /-- The text of the file, if it can be read. -/
  file : Option String
  /-- `_parse_config` runs the script. `_validate_config` then finds a configuration or does not. -/
  parse : String → Except Error (Option Configuration)
  /-- A new socket that listens at an ip, unless `bind` or `listen` raises something. -/
  listen : String → Except Error Socket
  /-- A connection to the BMP of this name. -/
  connect : String → Except Error Unit
  /-- `_notify_send.send` -/
  wake : Except Error Unit

/-- The server with what it knows of its configuration. -/
structure ConfigurationReloader where
  server : Server
  configuration : Configuration
  /-- `_reload_config` -/
  reloadConfig : Bool

namespace Server

/-- `_close` -/
def closeAll : Call Bool := do
  let s ← state
  let result ← match s.serverSocket with
    | none => pure false
    | some socket => do
      unregisterChannel socket
      update fun s => s.close socket
      update fun s => { s with serverSocket := none }
      pure true
  let s ← state
  forEach s.clientBuffers.keys disconnectClient
  return result

def openServerSocket (listening : Except Error Socket) : Call Socket := do
  let socket ← ofExcept listening
  registerChannel socket
  return socket

def restart (listening : Except Error Socket) : Call Unit := do
  let _ ← closeAll
  let socket ← openServerSocket listening
  update fun s => { s with serverSocket := some socket }

section Closing

variable {s t : Server} {c : Socket}

theorem unregisterChannel_keeps (I : Server → Prop) (channel : Socket)
    (hpoll : ∀ s fds, I s → I { s with poll := fds })
    (hfdmap : ∀ s fdmap, I s → I { s with fdmap := fdmap }) :
    Preserves I (unregisterChannel channel) := by
  intro s hs
  simp only [unregisterChannel, unregisterPoll, wp_bind, wp_state]
  split
  · exact hfdmap _ _ hs
  · split
    · exact hs
    · split
      · exact hfdmap _ _ (hpoll _ _ hs)
      · exact hs

/-- Something that is about neither channels nor clients is not changed by a restart, and that a
client is gone stays true. -/
theorem disconnectClient_keeps (I : Server → Prop) (client : Socket)
    (hbuffer : ∀ s, I s → I { s with clientBuffers := s.clientBuffers.erase client })
    (hwatches : ∀ s, I s → I (s.clearWatches client))
    (hpoll : ∀ s fds, I s → I { s with poll := fds })
    (hfdmap : ∀ s fdmap, I s → I { s with fdmap := fdmap })
    (hclose : ∀ s socket, I s → I (s.close socket)) :
    Preserves I (disconnectClient client) := by
  intro s hs
  simp only [disconnectClient, ignoringKeyError, wp_bind, wp_update, wp_rescue]
  apply (unregisterChannel_keeps I client hpoll hfdmap _ (hwatches _ (hbuffer _ hs))).mono
  · exact fun _ t ht => hclose t client ht
  · intro e t ht
    split
    · exact hclose t client ht
    · exact ht

theorem closeAll_keeps (I : Server → Prop)
    (hsocket : ∀ s socket, I s → I { s with serverSocket := socket })
    (hbuffer : ∀ s client, I s → I { s with clientBuffers := s.clientBuffers.erase client })
    (hwatches : ∀ s client, I s → I (s.clearWatches client))
    (hpoll : ∀ s fds, I s → I { s with poll := fds })
    (hfdmap : ∀ s fdmap, I s → I { s with fdmap := fdmap })
    (hclose : ∀ s socket, I s → I (s.close socket)) : Preserves I closeAll := by
  intro s hs
  have hclients {s : Server} (hs : I s) (clients : List Socket) :
      wp (forEach clients disconnectClient) (fun _ => I) (fun _ => I) s := by
    apply wp_forEach (I := fun _ => I) _ hs
    intro client _ t _ ht
    exact disconnectClient_keeps I client (fun s => hbuffer s client) (fun s => hwatches s client)
      hpoll hfdmap hclose t ht
  simp only [closeAll, wp_bind, wp_state]
  split
  · simp only [wp_bind, wp_pure, wp_state]
    exact hclients hs _
  · rw [wp_bind]
    apply (unregisterChannel_keeps I _ hpoll hfdmap s hs).mono _ fun _ _ he => he
    intro _ t ht
    simp only [wp_bind, wp_update, wp_pure, wp_state]
    exact hclients (hsocket _ _ (hclose _ _ ht)) _

theorem openServerSocket_keeps (I : Server → Prop) (listening : Except Error Socket)
    (hpoll : ∀ s fds, I s → I { s with poll := fds })
    (hfdmap : ∀ s fdmap, I s → I { s with fdmap := fdmap }) :
    Preserves I (openServerSocket listening) := by
  intro s hs
  simp only [openServerSocket, registerChannel, registerPoll, wp_bind]
  apply wp_ofExcept _ fun _ _ => hs
  intro socket _
  rw [wp_bind, wp_bind, wp_bind, wp_state]
  split
  · exact hfdmap _ _ hs
  · split
    · exact hs
    · exact hfdmap _ _ (hpoll _ _ hs)

theorem restart_controller (listening : Except Error Socket) (s : Server) :
    wp (restart listening) (fun _ t => t.controller = s.controller)
      (fun _ t => t.controller = s.controller) s := by
  simp only [restart, wp_bind]
  apply (closeAll_keeps (·.controller = s.controller) (fun _ _ h => h) (fun _ _ h => h)
    (fun _ _ h => h) (fun _ _ h => h) (fun _ _ h => h) (fun _ _ h => h) s rfl).mono _
      fun _ _ he => he
  intro _ t ht
  rw [wp_bind]
  exact openServerSocket_keeps (·.controller = s.controller) listening (fun _ _ h => h)
    (fun _ _ h => h) t ht

theorem restart_socket (listening : Except Error Socket) (s : Server) :
    wp (restart listening) (fun _ t => t.serverSocket ≠ none) (fun _ _ => True) s := by
  simp only [restart, wp_bind]
  apply (wp_trivial _).mono _ fun _ _ he => he
  intro _ t _
  rw [wp_bind]
  exact (wp_trivial _).mono (fun socket _ _ => Option.some_ne_none socket) fun _ _ he => he

theorem restart_unchanged {listening : Except Error Socket} (hsocket : s.serverSocket = none)
    (hclients : s.clientBuffers.keys = []) :
    wp (restart listening) (fun _ _ => True) (fun _ t => t = s) s := by
  simp only [restart, closeAll, wp_bind, wp_state, hsocket, wp_pure, hclients]
  change wp (openServerSocket listening >>= fun _ => update _) _ _ s
  simp only [openServerSocket, registerChannel, registerPoll, wp_bind]
  apply wp_ofExcept
  · intro socket _
    rw [wp_bind, wp_bind, wp_bind, wp_state]
    split
    · trivial
    · split
      · rfl
      · trivial
  · exact fun _ _ => rfl

theorem restart_forgets {listening : Except Error Socket} (hsocket : s.serverSocket = none)
    {clients : List Socket} (hclients : s.clientBuffers.keys = c :: clients) :
    wp (restart listening) (fun _ t => t.clientBuffers.get? c = none)
      (fun _ t => t.clientBuffers.get? c = none) s := by
  have hgone (s : Server) (client : Socket) (h : s.clientBuffers.get? c = none) :
      (s.clientBuffers.erase client).get? c = none := by
    rw [Dict.get?_erase]
    split
    · rfl
    · exact h
  have hclient (client : Socket) : Preserves (·.clientBuffers.get? c = none)
      (disconnectClient client) :=
    disconnectClient_keeps _ client (fun s => hgone s client) (fun _ h => h) (fun _ _ h => h)
      (fun _ _ h => h) fun _ _ h => h
  have hfirst : wp (disconnectClient c) (fun _ t => t.clientBuffers.get? c = none)
      (fun _ t => t.clientBuffers.get? c = none) s := by
    simp only [disconnectClient, ignoringKeyError, wp_bind, wp_update, wp_rescue]
    apply (unregisterChannel_keeps (·.clientBuffers.get? c = none) c (fun _ _ h => h)
      (fun _ _ h => h) _ (Dict.get?_erase_self s.clientBuffers c)).mono
    · exact fun _ t ht => ht
    · intro e t ht
      split
      · exact ht
      · exact ht
  simp only [restart, closeAll, wp_bind, wp_state, hsocket, wp_pure, hclients]
  change wp (disconnectClient c >>= fun _ => forEach clients disconnectClient) _ _ s
  rw [wp_bind]
  apply hfirst.mono _ fun _ _ he => he
  intro _ t ht
  have hrest : wp (forEach clients disconnectClient) (fun _ t => t.clientBuffers.get? c = none)
      (fun _ t => t.clientBuffers.get? c = none) t :=
    wp_forEach (I := fun _ t => t.clientBuffers.get? c = none)
      (fun client _ t _ ht => hclient client t ht) ht
  apply hrest.mono _ fun _ _ he => he
  intro _ u hu
  rw [wp_pure, wp_bind]
  exact openServerSocket_keeps (·.clientBuffers.get? c = none) listening (fun _ _ h => h)
    (fun _ _ h => h) u hu

end Closing

end Server

namespace ConfigurationReloader

abbrev Call (α : Type) := Prog Error ConfigurationReloader α

def onServer {α : Type} (m : Server.Call α) : Call α :=
  zoom ConfigurationReloader.server (fun server s => { s with server := server }) m

def onController {α : Type} (m : Controller.Call α) : Call α :=
  onServer (zoom Server.controller (fun c s => { s with controller := c }) m)

/-- The `seconds_before_free` setter -/
def setSecondsBeforeFree (value : ℤ) : Controller.Call Unit :=
  update fun t => ({ t.1 with secondsBeforeFree := value }, t.2)

def Restarts (s : ConfigurationReloader) (validated : Configuration) : Prop :=
  validated.ip ≠ s.configuration.ip ∨ s.server.serverSocket = none

instance (s : ConfigurationReloader) (validated : Configuration) :
    Decidable (s.Restarts validated) := inferInstanceAs (Decidable (_ ∨ _))

section Reading

variable (env : Surroundings)

def loadValidConfig (validated : Configuration) : Call Unit := do
  let old ← state
  update fun s => { s with configuration := validated }
  if old.Restarts validated then onServer (Server.restart (env.listen validated.ip))
  onController (Controller.own (Controller.setMaxRetiredJobs validated.maxRetiredJobs))
  onController (setSecondsBeforeFree validated.secondsBeforeFree)
  onController
    (Controller.setMachinesWith env.connect (Configuration.byName validated.machines))
  ofExcept env.wake

/-- The result is whether the reading succeeded. -/
def readConfigFile : Call Bool := do
  update fun s => { s with reloadConfig := false }
  match env.file with
  | none => return false
  | some script =>
    match env.parse script with
    | .error _ => return false
    | .ok none => return false
    | .ok (some validated) =>
      rescue (do
        loadValidConfig env validated
        return true) fun _ => return false

/-- The configuration that is to be installed, if there is one. -/
def obtained : Option Configuration :=
  match env.file with
  | none => none
  | some script =>
    match env.parse script with
    | .error _ => none
    | .ok validated => validated

end Reading

variable {env : Surroundings} {validated : Configuration} {s t : ConfigurationReloader}

def adjusted (t : JobQueue × Controller) (validated : Configuration) : JobQueue × Controller :=
  ({ t.1 with secondsBeforeFree := validated.secondsBeforeFree },
    t.2.limited validated.maxRetiredJobs)

/-- What the `machines` setter does on the controller with the new settings. -/
def reassigning (env : Surroundings) (t : JobQueue × Controller) (validated : Configuration) :
    Except Error Unit × JobQueue × Controller :=
  (Controller.setMachinesWith env.connect (Configuration.byName validated.machines)).run
    (adjusted t validated)

/-- Nothing raises when the configuration is installed: where the server has to be restarted its
connections can be closed and a new socket can be opened, as many retired jobs as are allowed can
be kept, the controller can be given the machines, with connections to the new BMPs, and the server
can be woken. -/
structure Installs (env : Surroundings) (validated : Configuration) (s : ConfigurationReloader) :
    Prop where
  restarts : s.Restarts validated →
    ((Server.restart (env.listen validated.ip)).run s.server).1.isOk
  limit : 0 ≤ validated.maxRetiredJobs
  machines : (reassigning env s.server.controller validated).1.isOk
  wake : env.wake.isOk

theorem wp_outcome {m : Controller.Call Unit} {t : JobQueue × Controller}
    {Q : Unit → JobQueue × Controller → Prop} {E : Error → JobQueue × Controller → Prop}
    (hok : (m.run t).1.isOk → Q () (m.run t).2)
    (herror : ¬(m.run t).1.isOk → ∀ e, E e (m.run t).2) : wp m Q E t := by
  unfold wp
  cases hrun : m.run t with
  | mk result t' =>
    rw [hrun] at hok herror
    cases result with
    | ok _ => exact hok rfl
    | error e => exact herror nofun e

def Restarted (env : Surroundings) (validated : Configuration) (s : ConfigurationReloader)
    (server : Server) : Prop :=
  if s.Restarts validated then
    (Server.restart (env.listen validated.ip)).run s.server = (.ok (), server)
  else server = s.server

def limited (s : ConfigurationReloader) (validated : Configuration) (server : Server) :
    ConfigurationReloader :=
  { s with
    configuration := validated
    server := { server with controller :=
      (server.controller.1, server.controller.2.limited validated.maxRetiredJobs) } }

def installed (env : Surroundings) (s : ConfigurationReloader) (validated : Configuration)
    (server : Server) : ConfigurationReloader :=
  { s with
    configuration := validated
    server := { server with controller := (reassigning env server.controller validated).2 } }

theorem loadValidConfig_wp {Q : Unit → ConfigurationReloader → Prop}
    {E : Error → ConfigurationReloader → Prop}
    (hrestart : ∀ e server, s.Restarts validated →
      (Server.restart (env.listen validated.ip)).run s.server = (.error e, server) →
      E e { s with configuration := validated, server := server })
    (hlimit : ∀ server, Restarted env validated s server → validated.maxRetiredJobs < 0 →
      ∀ e, E e (s.limited validated server))
    (hok : ∀ server, Restarted env validated s server → 0 ≤ validated.maxRetiredJobs →
      (reassigning env server.controller validated).1.isOk → env.wake.isOk →
      Q () (installed env s validated server))
    (herror : ∀ server, Restarted env validated s server → 0 ≤ validated.maxRetiredJobs →
      ¬((reassigning env server.controller validated).1.isOk ∧ env.wake.isOk) →
      ∀ e, E e (installed env s validated server)) :
    wp (loadValidConfig env validated) Q E s := by
  have hinstall (server : Server) (h : Restarted env validated s server) :
      wp (do
        onController (Controller.own (Controller.setMaxRetiredJobs validated.maxRetiredJobs))
        onController (setSecondsBeforeFree validated.secondsBeforeFree)
        onController
          (Controller.setMachinesWith env.connect (Configuration.byName validated.machines))
        ofExcept env.wake) Q E { s with configuration := validated, server := server } := by
    simp only [onController, onServer, Controller.own, Controller.setMaxRetiredJobs, wp_bind,
      wp_zoom, wp_update]
    split
    · next hneg => exact hlimit server h hneg .stopIteration
    · next hpos =>
      rw [not_lt] at hpos
      change wp (Controller.setMachinesWith env.connect (Configuration.byName validated.machines))
        _ _ (adjusted server.controller validated)
      apply wp_outcome
      · intro hreturns
        apply wp_ofExcept
        · intro _ hwake
          exact hok server h hpos hreturns (by rw [hwake]; rfl)
        · intro e hwake
          apply herror server h hpos _ e
          simp [hwake, Except.isOk, Except.toBool]
      · exact fun hraises e => herror server h hpos (fun hboth => hraises hboth.1) e
  simp only [loadValidConfig, wp_bind, wp_state, wp_update]
  split
  · next hr =>
    rw [wp_bind, onServer, wp_zoom]
    cases hrun : (Server.restart (env.listen validated.ip)).run s.server with
    | mk result server =>
      cases result with
      | error e => exact wp_intro_error hrun (hrestart e server hr hrun)
      | ok _ =>
        apply wp_intro_ok hrun
        exact hinstall server (by rw [Restarted, if_pos hr]; exact hrun)
  · next hr =>
    exact hinstall s.server (by rw [Restarted, if_neg hr])

structure SameSettings (t t' : JobQueue × Controller) : Prop where
  maxRetiredJobs : t'.2.maxRetiredJobs = t.2.maxRetiredJobs
  secondsBeforeFree : t'.1.secondsBeforeFree = t.1.secondsBeforeFree
  machines : t'.2.machines = t.2.machines
  jobs : t'.2.jobs = t.2.jobs
  job : t'.2.job = t.2.job

/-- The configuration, the sockets and the controller are what they were. -/
structure Retained (s t : ConfigurationReloader) : Prop where
  configuration : t.configuration = s.configuration
  serverSocket : t.server.serverSocket = s.server.serverSocket
  clientBuffers : t.server.clientBuffers = s.server.clientBuffers
  clientJobWatches : t.server.clientJobWatches = s.server.clientJobWatches
  clientMachineWatches : t.server.clientMachineWatches = s.server.clientMachineWatches
  fdmap : t.server.fdmap = s.server.fdmap
  fileno : t.server.fileno = s.server.fileno
  controller : SameSettings s.server.controller t.server.controller

/-- Installing the stored configuration once more has no effect: no socket can be opened for a
server that has neither a socket nor clients. Or the server goes on, with the limit for retired jobs
that is set already: it is negative, or the delay and the machines are set already as well, and no
job can be moved. -/
def Harmless (env : Surroundings) (validated : Configuration) (s : ConfigurationReloader) : Prop :=
  validated = s.configuration ∧
    if s.server.serverSocket = none then
      s.server.clientBuffers.keys = [] ∧
        ¬((Server.restart (env.listen validated.ip)).run s.server).1.isOk
    else
      s.server.controller.2.maxRetiredJobs = validated.maxRetiredJobs ∧
        (validated.maxRetiredJobs < 0 ∨
          s.server.controller.1.secondsBeforeFree = validated.secondsBeforeFree ∧
            Controller.Stationary (Configuration.byName validated.machines) s.server.controller)

/-- The stored configuration is installed once more, and the server goes on. -/
def Repeats (validated : Configuration) (s : ConfigurationReloader) : Prop :=
  validated = s.configuration ∧ s.server.serverSocket ≠ none ∧ 0 ≤ validated.maxRetiredJobs

theorem reassigning_stationary {t : JobQueue × Controller}
    (hmax : t.2.maxRetiredJobs = validated.maxRetiredJobs)
    (hseconds : t.1.secondsBeforeFree = validated.secondsBeforeFree)
    (hstationary : Controller.Stationary (Configuration.byName validated.machines) t) :
    SameSettings t (reassigning env t validated).2 := by
  have hadjusted : (adjusted t validated).1 = t.1 := by
    unfold adjusted
    rw [← hseconds]
  have hstationary' : Controller.Stationary (Configuration.byName validated.machines)
      (adjusted t validated) := by
    refine ⟨hstationary.registered, ?_, ?_⟩
    · rw [hadjusted]
      exact hstationary.queued
    · rw [hadjusted]
      exact hstationary.stalls
  have huntouched : JobQueue.Untouched (adjusted t validated).1 (adjusted t validated).2
      (reassigning env t validated).2 := wp_same hstationary'.setMachinesWith
  obtain ⟨hworld, hkept⟩ := huntouched
  rw [hadjusted] at hkept
  constructor
  · rw [hworld]
    exact hmax.symm
  · exact hkept
  · rw [hworld]
    rfl
  · rw [hworld]
    rfl
  · rw [hworld]
    rfl

theorem Restarted.controller {server : Server} (h : Restarted env validated s server) :
    server.controller = s.server.controller := by
  unfold Restarted at h
  split at h
  · have hkept := wp_of_eq_ok (Server.restart_controller _ s.server) h
    exact hkept
  · rw [h]

theorem Restarts.stopped (h : s.Restarts validated) (hsame : validated = s.configuration) :
    s.server.serverSocket = none := h.resolve_left fun hne => hne (congrArg (·.ip) hsame)

theorem Restarted.restart {server : Server} (hserver : Restarted env validated s server)
    (h : s.Restarts validated) :
    (Server.restart (env.listen validated.ip)).run s.server = (.ok (), server) := by
  rw [Restarted, if_pos h] at hserver
  exact hserver

theorem Restarted.same {server : Server} (hserver : Restarted env validated s server)
    (h : ¬s.Restarts validated) : server = s.server := by
  rw [Restarted, if_neg h] at hserver
  exact hserver

theorem Restarted.goes_on {server : Server} (hserver : Restarted env validated s server)
    (hsame : validated = s.configuration) (hsocket : server.serverSocket = s.server.serverSocket) :
    s.server.serverSocket ≠ none ∧ server = s.server := by
  by_cases hr : s.Restarts validated
  · rw [hr.stopped hsame] at hsocket
    exact absurd hsocket (wp_of_eq_ok (Server.restart_socket _ s.server) (hserver.restart hr))
  · exact ⟨fun hstopped => hr (.inr hstopped), hserver.same hr⟩

theorem Harmless.goes_on {server : Server} (h : Harmless env validated s)
    (hserver : Restarted env validated s server) :
    server = s.server ∧ s.server.controller.2.maxRetiredJobs = validated.maxRetiredJobs ∧
      (validated.maxRetiredJobs < 0 ∨
        s.server.controller.1.secondsBeforeFree = validated.secondsBeforeFree ∧
          Controller.Stationary (Configuration.byName validated.machines) s.server.controller) := by
  obtain ⟨hsame, hharmless⟩ := h
  by_cases hr : s.Restarts validated
  · rw [if_pos (hr.stopped hsame), hserver.restart hr] at hharmless
    exact absurd rfl hharmless.2
  · rw [if_neg fun hstopped => hr (.inr hstopped)] at hharmless
    exact ⟨hserver.same hr, hharmless⟩

theorem loadValidConfig_retains (h : Installs env validated s ∨ Harmless env validated s) :
    wp (loadValidConfig env validated) (fun _ _ => True) (fun _ t => Retained s t) s := by
  apply loadValidConfig_wp
  · intro e server hr hrun
    obtain hinstalls | ⟨hsame, hharmless⟩ := h
    · have hok := hinstalls.restarts hr
      rw [hrun] at hok
      cases hok
    · have hstopped := hr.stopped hsame
      rw [if_pos hstopped] at hharmless
      have hunchanged := wp_of_eq_error (Server.restart_unchanged hstopped hharmless.1) hrun
      rw [hunchanged]
      exact ⟨hsame, rfl, rfl, rfl, rfl, rfl, rfl, ⟨rfl, rfl, rfl, rfl, rfl⟩⟩
  · intro server hserver hneg e
    obtain hinstalls | hharmless := h
    · exact absurd hneg (not_lt.mpr hinstalls.limit)
    · obtain ⟨rfl, hmax, -⟩ := hharmless.goes_on hserver
      exact ⟨hharmless.1, rfl, rfl, rfl, rfl, rfl, rfl, ⟨hmax.symm, rfl, rfl, rfl, rfl⟩⟩
  · exact fun _ _ _ _ _ => trivial
  · intro server hserver hpos hfails e
    obtain hinstalls | hharmless := h
    · rw [hserver.controller] at hfails
      exact absurd ⟨hinstalls.machines, hinstalls.wake⟩ hfails
    · obtain ⟨rfl, hmax, hkept⟩ := hharmless.goes_on hserver
      obtain ⟨hseconds, hstationary⟩ := hkept.resolve_left (not_lt.mpr hpos)
      exact ⟨hharmless.1, rfl, rfl, rfl, rfl, rfl, rfl,
        reassigning_stationary hmax hseconds hstationary⟩

theorem loadValidConfig_alters
    (h : ¬(Installs env validated s ∨ Harmless env validated s ∨ Repeats validated s)) :
    wp (loadValidConfig env validated) (fun _ _ => False) (fun _ t => ¬Retained s t) s := by
  rw [not_or, not_or] at h
  obtain ⟨hinstalls, hharmless, hrepeats⟩ := h
  apply loadValidConfig_wp
  · intro e server hr hrun hretained
    have hsame : validated = s.configuration := hretained.configuration
    have hstopped := hr.stopped hsame
    cases hclients : s.server.clientBuffers.keys with
    | nil =>
      apply hharmless
      refine ⟨hsame, ?_⟩
      rw [if_pos hstopped, hrun]
      exact ⟨hclients, nofun⟩
    | cons client clients =>
      have hgone := wp_of_eq_error (Server.restart_forgets hstopped hclients) hrun
      have hbuffers : server.clientBuffers = s.server.clientBuffers := hretained.clientBuffers
      rw [hbuffers, Dict.get?_eq_none, hclients] at hgone
      exact hgone List.mem_cons_self
  · intro server hserver hneg e hretained
    have hsame : validated = s.configuration := hretained.configuration
    obtain ⟨hrunning, rfl⟩ := hserver.goes_on hsame hretained.serverSocket
    apply hharmless
    refine ⟨hsame, ?_⟩
    rw [if_neg hrunning]
    exact ⟨hretained.controller.maxRetiredJobs.symm, .inl hneg⟩
  · intro server hserver hpos hreturns hwake
    apply hinstalls
    rw [hserver.controller] at hreturns
    refine ⟨fun hr => ?_, hpos, hreturns, hwake⟩
    rw [hserver.restart hr]
    rfl
  · intro server hserver hpos hfails e hretained
    have hsame : validated = s.configuration := hretained.configuration
    exact hrepeats ⟨hsame, (hserver.goes_on hsame hretained.serverSocket).1, hpos⟩

def reloading (s : ConfigurationReloader) : ConfigurationReloader := { s with reloadConfig := false }

theorem installs_reloading : Installs env validated s.reloading ↔ Installs env validated s :=
  ⟨fun h => ⟨h.restarts, h.limit, h.machines, h.wake⟩,
    fun h => ⟨h.restarts, h.limit, h.machines, h.wake⟩⟩

theorem retained_reloading : Retained s.reloading t ↔ Retained s t :=
  ⟨fun h => ⟨h.1, h.2, h.3, h.4, h.5, h.6, h.7, h.8⟩,
    fun h => ⟨h.1, h.2, h.3, h.4, h.5, h.6, h.7, h.8⟩⟩

theorem readConfigFile_run_none (h : obtained env = none) :
    (readConfigFile env).run s = (.ok false, s.reloading) := by
  unfold obtained at h
  suffices hwp : wp (readConfigFile env) (fun a t => a = false ∧ t = s.reloading)
      (fun _ _ => False) s by
    obtain ⟨_, _, hrun, rfl, rfl⟩ := wp_returns hwp
    exact hrun
  simp only [readConfigFile, wp_bind, wp_update]
  cases hfile : env.file with
  | none => exact ⟨rfl, rfl⟩
  | some script =>
    rw [hfile] at h
    dsimp only at h ⊢
    cases hparse : env.parse script with
    | error e => exact ⟨rfl, rfl⟩
    | ok validated =>
      rw [hparse] at h
      cases h
      exact ⟨rfl, rfl⟩

theorem readConfigFile_wp (h : obtained env = some validated)
    {Q : Bool → ConfigurationReloader → Prop} {E : Error → ConfigurationReloader → Prop} :
    wp (readConfigFile env) Q E s ↔
      wp (loadValidConfig env validated) (fun _ => Q true) (fun _ => Q false) s.reloading := by
  unfold obtained at h
  simp only [readConfigFile, wp_bind, wp_update]
  cases hfile : env.file with
  | none =>
    rw [hfile] at h
    cases h
  | some script =>
    rw [hfile] at h
    dsimp only at h ⊢
    cases hparse : env.parse script with
    | error e =>
      rw [hparse] at h
      cases h
    | ok found =>
      rw [hparse] at h
      dsimp only at h ⊢
      rw [h]
      simp only [wp_rescue, wp_bind]
      rfl

/-- A configuration that can neither be installed nor fails harmlessly leaves something behind,
unless it is installed once more. -/
theorem readConfigFile_alters (h : obtained env = some validated)
    (hne : ¬(Installs env validated s ∨ Harmless env validated s ∨ Repeats validated s)) :
    ∃ t, (readConfigFile env).run s = (.ok false, t) ∧ ¬Retained s t := by
  have halters : wp (readConfigFile env) (fun a t => a = false ∧ ¬Retained s t)
      (fun _ _ => False) s := by
    rw [readConfigFile_wp h]
    apply (loadValidConfig_alters (mt (Or.imp_left installs_reloading.mp) hne)).mono
    · exact fun _ _ he => he.elim
    · exact fun _ t ht => ⟨rfl, mt retained_reloading.mpr ht⟩
  obtain ⟨_, t, hrun, rfl, ht⟩ := wp_returns halters
  exact ⟨t, hrun, ht⟩

/-- A reading that fails changes nothing if what it has obtained, if anything, can be installed or
fails harmlessly, and only if it can, fails so or is the stored configuration once more. -/
theorem readConfigFile_retains (env : Surroundings) (s : ConfigurationReloader) :
    ((∀ validated, obtained env = some validated →
        Installs env validated s ∨ Harmless env validated s) →
      ∀ t, (readConfigFile env).run s = (.ok false, t) → Retained s t) ∧
    ((∀ t, (readConfigFile env).run s = (.ok false, t) → Retained s t) →
      ∀ validated, obtained env = some validated →
        Installs env validated s ∨ Harmless env validated s ∨ Repeats validated s) := by
  constructor
  · intro hall t hrun
    cases hobtained : obtained env with
    | none =>
      rw [readConfigFile_run_none hobtained] at hrun
      cases hrun
      exact ⟨rfl, rfl, rfl, rfl, rfl, rfl, rfl, ⟨rfl, rfl, rfl, rfl, rfl⟩⟩
    | some validated =>
      have hretains : wp (readConfigFile env) (fun a t => a = false → Retained s t)
          (fun _ _ => True) s := by
        rw [readConfigFile_wp hobtained]
        apply (loadValidConfig_retains
          (Or.imp_left installs_reloading.mpr (hall validated hobtained))).mono
        · exact fun _ _ _ => nofun
        · exact fun _ t ht _ => retained_reloading.mp ht
      have hfalse := wp_of_eq_ok hretains hrun
      exact hfalse rfl
  · intro hall validated hobtained
    by_contra hne
    obtain ⟨t, hrun, ht⟩ := readConfigFile_alters hobtained hne
    exact ht (hall t hrun)

def listensAt (ip : String) : Configuration where
  machines := []
  port := 22244
  ip := ip
  timeoutCheckInterval := 5
  maxRetiredJobs := 1200
  secondsBeforeFree := 0
  names := List.nodup_nil
  bmpIps := List.nodup_nil
  spinnakerIps := List.nodup_nil

def started : ConfigurationReloader where
  server := (do
    let socket ← Server.openServerSocket (.ok 1)
    update fun s => { s with serverSocket := some socket }
    Server.acceptClient (some 0) : Server.Call Unit).run
      (Server.new Controller.Setup.quiet.start (some ∅) Nat.cast fun _ _ => .ok ()) |>.2
  configuration := listensAt ""
  reloadConfig := true

def unbindable : Surroundings where
  file := some ""
  parse _ := .ok (some (listensAt "10.0.0.1"))
  listen _ := .error (.osError "Cannot assign requested address")
  connect _ := .ok ()
  wake := .ok ()

/-- The new ip is stored, and there is no socket at either. -/
theorem readConfigFile_not_retained :
    ¬∀ (env : Surroundings) (s t : ConfigurationReloader),
      (readConfigFile env).run s = (.ok false, t) → Retained s t := by
  intro h
  have hfalse : ((readConfigFile unbindable).run started).1 = .ok false := by decide +kernel
  have hclosed : ((readConfigFile unbindable).run started).2.server.serverSocket = none := by
    decide +kernel
  have hopen : started.server.serverSocket = some 1 := by decide +kernel
  have hsocket := (h unbindable started ((readConfigFile unbindable).run started).2
    (Prod.ext hfalse rfl)).serverSocket
  rw [hclosed, hopen] at hsocket
  cases hsocket

end ConfigurationReloader

end SpallocServer
