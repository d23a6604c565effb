import SpallocServer.Foundation.SetOrder
import SpallocServer.AsyncBmpController
import SpallocServer.Configuration
import SpallocServer.JobQueue

namespace SpallocServer

open Foundation Coordinates

inductive JobState where
  | unknown
  | queued
  | power
  | ready
  | destroyed
  deriving DecidableEq, Repr

namespace Controller

/-- `keepalive` and `keepalive_until`, which are `None` together. -/
structure Keepalive where
  keepalive : ℚ
  keepaliveUntil : ℚ

/-- `_Job` -/
structure Job where
  owner : String
  startTime : ℚ
  keepalive : Option Keepalive
  lasthost : Option String
  state : JobState
  power : Option Bool
  allocatedMachine : Option Configuration.Machine
  boards : Option (Finset Board)
  periphery : Option (Finset BoardLink)
  torus : Option WrapAround
  width : Option ℤ
  height : Option ℤ
  connections : Option (Dict (ℤ × ℤ) String)
  bmpRequestsUntilReady : ℤ

def Job.new (owner : String) (startTime : ℚ) (keepalive : Option Keepalive)
    (lasthost : Option String) : Job where
  owner := owner
  startTime := startTime
  keepalive := keepalive
  lasthost := lasthost
  state := .queued
  power := none
  allocatedMachine := none
  boards := none
  periphery := none
  torus := none
  width := none
  height := none
  connections := none
  bmpRequestsUntilReady := 0

end Controller

/-- The controller without its job queue. No id is given to two jobs, so the jobs, also those
that are gone but still waited for, are found by their ids. -/
structure Controller where
  nextId : ℕ
  machines : Dict String Configuration.Machine
  /-- The ids in `_jobs`, oldest first. -/
  jobs : List ℕ
  maxRetiredJobs : ℤ
  retiredJobs : Dict ℕ (Option String)
  changedJobs : Finset ℕ
  changedMachines : Finset String
  bmpControllers : Dict String (Dict (ℤ × ℤ) ℕ)
  job : ℕ → Controller.Job
  bmp : ℕ → AsyncBmpController
  nextBmp : ℕ
  /-- What `time()` will answer, each time it is called. -/
  clock : ℕ → ℚ
  reads : ℕ
  /-- What `datetime.now(utc)` will answer when the job with this id is created. -/
  utcnow : ℕ → ℚ
  boardOrder : SetOrder Board
  linkOrder : SetOrder BoardLink
  nameOrder : SetOrder String

namespace Controller

def new (nextId maxRetiredJobs : ℕ) (clock utcnow : ℕ → ℚ) (boardOrder : SetOrder Board)
    (linkOrder : SetOrder BoardLink) (nameOrder : SetOrder String) : Controller where
  nextId := nextId
  machines := Dict.empty
  jobs := []
  maxRetiredJobs := maxRetiredJobs
  retiredJobs := Dict.empty
  changedJobs := ∅
  changedMachines := ∅
  bmpControllers := Dict.empty
  job _ := .new "" 0 none none
  bmp _ := .new ""
  nextBmp := 0
  clock := clock
  reads := 0
  utcnow := utcnow
  boardOrder := boardOrder
  linkOrder := linkOrder
  nameOrder := nameOrder

def setJob (c : Controller) (id : ℕ) (job : Job) : Controller :=
  { c with job := Function.update c.job id job }

def setBmp (c : Controller) (b : ℕ) (bmp : AsyncBmpController) : Controller :=
  { c with bmp := Function.update c.bmp b bmp }

def assigned (c : Controller) (id : ℕ) (name : String) (machine : Configuration.Machine)
    (boards : Finset Board) (periphery : Finset BoardLink) (torus : WrapAround) : Controller :=
  { c.setJob id { c.job id with
      allocatedMachine := some machine
      boards := some boards
      periphery := some periphery
      torus := some torus } with
    changedJobs := insert id c.changedJobs
    changedMachines := insert name c.changedMachines }

def sized (c : Controller) (id : ℕ) (size : ℤ × ℤ) : Controller :=
  c.setJob id { c.job id with
    width := some size.1
    height := some size.2 }

def connected (c : Controller) (id : ℕ) (connections : Dict (ℤ × ℤ) String) : Controller :=
  c.setJob id { c.job id with connections := some connections }

def counted (c : Controller) (id n : ℕ) : Controller :=
  c.setJob id { c.job id with
    bmpRequestsUntilReady := (c.job id).bmpRequestsUntilReady + n }

def powering (c : Controller) (id : ℕ) (power : Bool) : Controller :=
  { c.setJob id { c.job id with
      state := .power
      power := some power } with
    changedJobs := insert id c.changedJobs }

def retain (maxRetiredJobs : ℤ) (retiredJobs : Dict ℕ (Option String)) :
    Dict ℕ (Option String) :=
  if retiredJobs.entries.length > maxRetiredJobs then retiredJobs.dropFirst else retiredJobs

def limited (c : Controller) (value : ℤ) : Controller :=
  { c with
    maxRetiredJobs := value
    retiredJobs :=
      Dict.dropFirst^[(c.retiredJobs.entries.length - value).toNat] c.retiredJobs }

def retired (c : Controller) (id : ℕ) (reason : Option String) : Controller :=
  { c with
    jobs := c.jobs.filter (· ≠ id)
    retiredJobs := retain c.maxRetiredJobs (c.retiredJobs.set id reason)
    changedJobs := insert id c.changedJobs }

def uncounted (c : Controller) (id : ℕ) : Controller :=
  c.setJob id { c.job id with
    bmpRequestsUntilReady := (c.job id).bmpRequestsUntilReady - 1 }

def readied (c : Controller) (id : ℕ) : Controller :=
  c.setJob id { c.job id with state := .ready }

def wired (c : Controller) (name : String) (frame : ℤ × ℤ) (hostname : String) : Controller :=
  { c.setBmp c.nextBmp (.new hostname) with
    bmpControllers := c.bmpControllers.set name
      (((c.bmpControllers.get? name).getD Dict.empty).set frame c.nextBmp)
    nextBmp := c.nextBmp + 1 }

def wiredUp (c : Controller) (machine : Configuration.Machine) : Controller :=
  machine.bmpIps.entries.foldl (fun c p => c.wired machine.name p.1 p.2)
    { c with bmpControllers := c.bmpControllers.set machine.name Dict.empty }

/-- The controllers among `bmps` stop when all their requests are completed. -/
def stopped (c : Controller) (bmps : List ℕ) : Controller :=
  { c with bmp := fun b => if b ∈ bmps then (c.bmp b).stop else c.bmp b }

def createdJob (c : Controller) (id : ℕ) (owner : String) (keepalive : Option Keepalive)
    (ownerhost : Option String) : Controller :=
  { c.setJob id (.new owner (c.utcnow id) keepalive ownerhost) with jobs := c.jobs ++ [id] }

/-- `min(boards)` -/
def leastBoard (boards : Finset Board) : Except Error Board :=
  if h : (boards.map Board.key.toEmbedding).Nonempty then
    .ok (Board.key.symm ((boards.map Board.key.toEmbedding).min' h))
  else .error (.valueError "min() arg is an empty sequence")

/-- `max(boards)` -/
def greatestBoard (boards : Finset Board) : Except Error Board :=
  if h : (boards.map Board.key.toEmbedding).Nonempty then
    .ok (Board.key.symm ((boards.map Board.key.toEmbedding).max' h))
  else .error (.valueError "max() arg is an empty sequence")

def dimensions (origin top : Board) (boards : Finset Board) (torus : WrapAround) : ℤ × ℤ :=
  if 1 < boards.card then
    triadDimensionsToChips (top.1 - origin.1 + 1) (top.2.1 - origin.2.1 + 1) torus
  else (8, 8)

/-- The chip of a board, seen from the first board of its job. -/
def chip (origin b : Board) : ℤ × ℤ :=
  boardToChip (b.1 - origin.1) (b.2.1 - origin.2.1) (b.2.2 - origin.2.2)

def connect (machine : Configuration.Machine) (origin : Board)
    (connections : Dict (ℤ × ℤ) String) : List Board → Except Error (Dict (ℤ × ℤ) String)
  | [] => .ok connections
  | b :: rest =>
    match machine.spinnakerIps.get? b with
    | none => .error .keyError
    | some ip => connect machine origin (connections.set (chip origin b) ip) rest

def locate (machine : Configuration.Machine) (controllers : Dict (ℤ × ℤ) ℕ) (b : Board) :
    Except Error (ℕ × ℤ) :=
  match machine.boardLocations.get? b with
  | none => .error .keyError
  | some (cabinet, frame, number) =>
    match controllers.get? (cabinet, frame) with
    | none => .error .keyError
    | some controller => .ok (controller, number)

def group (id : ℕ) (commands : Dict ℕ AtomicRequests) (controller : ℕ)
    (f : AtomicRequests → AtomicRequests) : Dict ℕ AtomicRequests :=
  commands.set controller (f ((commands.get? controller).getD (.new id)))

def powerCommands (machine : Configuration.Machine) (controllers : Dict (ℤ × ℤ) ℕ) (id : ℕ)
    (power : Bool) (commands : Dict ℕ AtomicRequests) :
    List Board → Except Error (Dict ℕ AtomicRequests)
  | [] => .ok commands
  | b :: rest =>
    match locate machine controllers b with
    | .error e => .error e
    | .ok (controller, number) =>
      powerCommands machine controllers id power
        (group id commands controller (·.power number power)) rest

def linkCommands (machine : Configuration.Machine) (controllers : Dict (ℤ × ℤ) ℕ) (id : ℕ)
    (enable : Bool) (commands : Dict ℕ AtomicRequests) :
    List BoardLink → Except Error (Dict ℕ AtomicRequests)
  | [] => .ok commands
  | (b, link) :: rest =>
    match locate machine controllers b with
    | .error e => .error e
    | .ok (controller, number) =>
      linkCommands machine controllers id enable
        (group id commands controller (·.link number link enable)) rest

def notIterable : Error := .typeError "'NoneType' object is not iterable"

def frameCommands (c : Controller) (id : ℕ) (power : Bool) (linkEnable : Option Bool) :
    Except Error (Dict ℕ AtomicRequests) :=
  match (c.job id).allocatedMachine with
  -- `None.name`
  | none => .error .attributeError
  | some machine =>
    match c.bmpControllers.get? machine.name with
    | none => .error .keyError
    | some controllers => do
      let some boards := (c.job id).boards | .error notIterable
      let commands ←
        powerCommands machine controllers id power Dict.empty (c.boardOrder.list boards)
      let some enable := linkEnable | .ok commands
      let some periphery := (c.job id).periphery | .error notIterable
      linkCommands machine controllers id enable commands (c.linkOrder.list periphery)

open Prog

/-- `time()` -/
def timestamp : Prog Error Controller ℚ := do
  let c ← state
  update fun c => { c with reads := c.reads + 1 }
  return c.clock c.reads

def aliveUntil (keepalive : Option ℚ) : Prog Error Controller (Option Keepalive) :=
  match keepalive with
  | none => return none
  | some seconds => do
    let now ← timestamp
    return some ⟨seconds, now + seconds⟩

/-- `update_keepalive` -/
def updateKeepalive (id : ℕ) (host : Option String) : Prog Error Controller Unit := do
  update fun c => c.setJob id { c.job id with lasthost := host <|> (c.job id).lasthost }
  let c ← state
  let keepalive ← aliveUntil ((c.job id).keepalive.map (·.keepalive))
  update fun c => c.setJob id { c.job id with keepalive := keepalive }

def jobKeepalive (clienthost : Option String) (id : ℕ) : Prog Error Controller Unit := do
  let c ← state
  if id ∈ c.jobs then updateKeepalive id clienthost
  else return ()

/-- `add_requests` of a BMP controller -/
def addRequests (b : ℕ) (requests : AtomicRequests) : Prog Error Controller Unit := do
  let c ← state
  if (c.bmp b).stopped then raise .assertionError
  else update fun c => c.setBmp b ((c.bmp b).accepted requests)

/-- `_set_job_power_and_links` -/
def setJobPowerAndLinks (id : ℕ) (power : Bool) (linkEnable : Option Bool) :
    Prog Error Controller Unit := do
  let c ← state
  let commands ← ofExcept (c.frameCommands id power linkEnable)
  update fun c => c.counted id commands.entries.length
  forEach commands.entries fun (b, requests) => addRequests b requests
  update fun c => c.powering id power

/-- What `power_on_job_boards` and `power_off_job_boards` have in common. -/
def setJobBoards (clienthost : Option String) (id : ℕ) (power : Bool)
    (linkEnable : Option Bool) : Prog Error Controller Unit := do
  jobKeepalive clienthost id
  let c ← state
  if id ∈ c.jobs ∧ (c.job id).boards ≠ none then setJobPowerAndLinks id power linkEnable
  else return ()

def powerOnJobBoards (clienthost : Option String) (id : ℕ) : Prog Error Controller Unit :=
  setJobBoards clienthost id true (some false)

def powerOffJobBoards (clienthost : Option String) (id : ℕ) : Prog Error Controller Unit :=
  setJobBoards clienthost id false none

/-- `_job_queue_on_allocate` -/
def onAllocate (id : ℕ) (machineName : String) (boards : Finset Board)
    (periphery : Finset BoardLink) (torus : WrapAround) : Prog Error Controller Unit := do
  let c ← state
  if id ∉ c.jobs then raise .keyError
  else
    match c.machines.get? machineName with
    | none => raise .keyError
    | some machine =>
      update fun c => c.assigned id machineName machine boards periphery torus
      let origin ← ofExcept (leastBoard boards)
      let top ← ofExcept (greatestBoard boards)
      update fun c => c.sized id (dimensions origin top boards torus)
      let connections ←
        ofExcept (connect machine origin Dict.empty (c.boardOrder.list boards))
      update fun c => c.connected id connections
      powerOnJobBoards (c.job id).lasthost id

/-- `_teardown_job` -/
def teardownJob (id : ℕ) (reason : Option String) : Prog Error Controller Unit := do
  let c ← state
  if id ∉ c.jobs then raise .keyError
  else
    update fun c => c.retired id reason
    if (c.job id).boards ≠ none then setJobPowerAndLinks id false none
    else return ()

/-- `_job_queue_on_free` -/
def onFree (id : ℕ) (reason : Option String) : Prog Error Controller Unit := do
  let c ← state
  if id ∉ c.jobs then raise .keyError
  else
    match (c.job id).allocatedMachine with
    | none => raise .attributeError
    | some machine =>
      update fun c => { c with changedMachines := insert machine.name c.changedMachines }
      teardownJob id reason

/-- `_job_queue_on_cancel` -/
def onCancel (id : ℕ) (reason : Option String) : Prog Error Controller Unit :=
  teardownJob id (some ("Cancelled: " ++ reason.getD ""))

def callbacks : Callbacks Controller := ⟨onAllocate, onFree, onCancel⟩

/-- The `max_retired_jobs` setter -/
def setMaxRetiredJobs (value : ℤ) : Prog Error Controller Unit := do
  update fun c => c.limited value
  -- the empty table is still too long, and has no first entry
  if value < 0 then raise .stopIteration else return ()

theorem setMaxRetiredJobs_nat (value : ℕ) :
    setMaxRetiredJobs value = update fun c => c.limited value := by
  unfold setMaxRetiredJobs
  rw [if_neg (by omega)]
  rfl

def stopMachines : List String → Prog Error Controller Unit
  | [] => return ()
  | name :: names => do
    let c ← state
    match c.bmpControllers.get? name with
    | none => raise .keyError
    | some controllers =>
      update fun c => c.stopped controllers.values
      stopMachines names

def stop : Prog Error Controller Unit := do
  let c ← state
  stopMachines c.machines.keys

abbrev Call (α : Type) := JobQueue.Call Controller α

def own {α : Type} (m : Prog Error Controller α) : Call α :=
  zoom Prod.snd (fun c s => (s.1, c)) m

def controller : Call Controller := do
  let s ← state
  return s.2

def adjust (f : Controller → Controller) : Call Unit := update fun s => (s.1, f s.2)

def createJob (ownerhost owner : Option String) (keepalive : Option (Option ℚ))
    (machine : Option MachineName) (tags : Option Tags) (request : Request) :
    Call ℕ := do
  match owner, keepalive with
  | some owner, some keepalive =>
    let c ← controller
    let id := c.nextId
    adjust fun c => { c with nextId := c.nextId + 1 }
    let alive ← own (aliveUntil keepalive)
    adjust fun c => c.createdJob id owner alive ownerhost
    JobQueue.createJob callbacks (some id) machine tags request
    adjust fun c => { c with changedJobs := insert id c.changedJobs }
    return id
  -- `kwargs.pop`
  | _, _ => raise .keyError

def destroyJob (id : ℕ) (reason : Option String) : Call Unit := do
  let c ← controller
  if id ∈ c.jobs then JobQueue.destroyJob callbacks id reason
  else return ()

def destroyTimedOutJobs : Call Unit := do
  let now ← own timestamp
  let c ← controller
  forEach c.jobs fun id => do
    let c ← controller
    match (c.job id).keepalive with
    | some alive =>
      if alive.keepaliveUntil < now then destroyJob id (some "Job timed out.")
      else return ()
    | none => return ()

def checkFree : Call Unit := JobQueue.checkFree callbacks

def cancelFailed (id : ℕ) (success : Bool) (reason : Option String) : Call Unit :=
  if success then return ()
  else
    let error := match reason with
      | some reason => " Error: " ++ reason
      | none => ""
    destroyJob id (some ("Machine configuration failed." ++ error))

def freeRetired (id : ℕ) : Call Unit := do
  let c ← controller
  if (c.retiredJobs.get? id).isSome then JobQueue.free callbacks id
  else return ()

def reportReady (id : ℕ) : Call Unit := do
  let c ← controller
  if id ∈ c.jobs then adjust fun c => { c with changedJobs := insert id c.changedJobs }
  else return ()

def countDown (id : ℕ) : Call Unit := do
  adjust fun c => c.uncounted id
  let c ← controller
  if (c.job id).bmpRequestsUntilReady < 0 then raise .assertionError
  else if (c.job id).bmpRequestsUntilReady = 0 then
    adjust fun c => c.readied id
    freeRetired id
    reportReady id
  else return ()

/-- `_bmp_on_request_complete` -/
def bmpOnRequestComplete (id : ℕ) (success : Bool) (reason : Option String) : Call Unit := do
  cancelFailed id success reason
  countDown id

/-- The thread of a BMP controller is done with the first of its requests. That a callback for a
success is called again where it raises is left to `Threaded`. -/
def complete (b : ℕ) (success : Bool) : Call Unit := do
  let c ← controller
  match (c.bmp b).requests with
  | [] => return ()
  | r :: _ =>
    adjust fun c => c.setBmp b (c.bmp b).popped
    bmpOnRequestComplete r.onDone success (if success then none else some (c.bmp b).reason)

/-- Machines by their names. -/
structure Machines where
  dict : Dict String Configuration.Machine
  named : ∀ name machine, dict.get? name = some machine → machine.name = name

theorem Machines.named_empty (name : String) (machine : Configuration.Machine)
    (h : (Dict.empty : Dict String Configuration.Machine).get? name = some machine) :
    machine.name = name := by
  cases h

/-- What happens to a machine whose name is known before and after. -/
inductive Change where
  | none
  | minor
  | major
  deriving DecidableEq, Repr

def compare (old new : Configuration.Machine) : Change :=
  if old.Same new then .none
  else if old.Alike new then .minor
  else .major

def common (before after : Dict String Configuration.Machine) (change : Change) :
    Finset String :=
  before.keys.toFinset.filter fun name =>
    (do return compare (← before.get? name) (← after.get? name)) = some change

def addedNames (before after : Dict String Configuration.Machine) : Finset String :=
  (after.keys.toFinset \ before.keys.toFinset) ∪ common before after .major

def removedNames (before after : Dict String Configuration.Machine) : Finset String :=
  (before.keys.toFinset \ after.keys.toFinset) ∪ common before after .major

def removeMachines : List String → Call (List ℕ)
  | [] => return []
  | name :: names => do
    JobQueue.removeMachine callbacks name
    let c ← controller
    if (c.machines.get? name).isNone then raise .keyError
    else
      adjust fun c => { c with machines := c.machines.erase name }
      match c.bmpControllers.get? name with
      | none => raise .keyError
      | some controllers =>
        adjust fun c => { c with bmpControllers := c.bmpControllers.erase name }
        let rest ← removeMachines names
        return controllers.values ++ rest

def changeMachine (machines : Dict String Configuration.Machine) (name : String) :
    Call Unit :=
  match machines.get? name with
  | none => raise .keyError
  | some new => do
    JobQueue.modifyMachine callbacks name (some new.tags) (some new.deadBoards)
      (some new.deadLinks)
    adjust fun c => { c with machines := c.machines.set name new }

/-- Connecting to a BMP, by `create_transceiver_from_hostname`, may raise. -/
def createMachineBmpControllers (connect : String → Except Error Unit)
    (machine : Configuration.Machine) : Call Unit := do
  adjust fun c => { c with bmpControllers := c.bmpControllers.set machine.name Dict.empty }
  forEach machine.bmpIps.entries fun p => do
    ofExcept (connect p.2)
    adjust fun c => c.wired machine.name p.1 p.2

def addMachineWith (connect : String → Except Error Unit)
    (machines : Dict String Configuration.Machine) (name : String) : Call Unit :=
  match machines.get? name with
  | none => raise .keyError
  | some new => do
    adjust fun c => { c with machines := c.machines.set name new }
    createMachineBmpControllers connect new
    JobQueue.addMachine callbacks name new.width new.height (some new.tags) new.deadBoards
      new.deadLinks

def connectAny (_hostname : String) : Except Error Unit := .ok ()

def addMachine (machines : Dict String Configuration.Machine) (name : String) : Call Unit :=
  addMachineWith connectAny machines name

theorem createMachineBmpControllers_any (machine : Configuration.Machine) :
    createMachineBmpControllers connectAny machine = adjust fun c => c.wiredUp machine := by
  have hwired (l : List ((ℤ × ℤ) × String)) (t : JobQueue × Controller) :
      Prog.run (forEach l fun p => do
        ofExcept (connectAny p.2)
        adjust fun c => c.wired machine.name p.1 p.2) t =
      (.ok (), t.1, l.foldl (fun c p => c.wired machine.name p.1 p.2) t.2) := by
    induction l generalizing t with
    | nil => rfl
    | cons p l ih => exact ih _
  funext t
  exact hwired _ _

theorem addMachine_none {machines : Dict String Configuration.Machine} {name : String}
    (h : machines.get? name = none) : addMachine machines name = raise .keyError := by
  rw [addMachine, addMachineWith, h]

theorem addMachine_some {machines : Dict String Configuration.Machine} {name : String}
    {new : Configuration.Machine} (h : machines.get? name = some new) :
    addMachine machines name = (do
      adjust fun c => { c with machines := c.machines.set name new }
      adjust fun c => c.wiredUp new
      JobQueue.addMachine callbacks name new.width new.height (some new.tags) new.deadBoards
        new.deadLinks) := by
  rw [addMachine, addMachineWith, h, ← createMachineBmpControllers_any]

def moveToEnd (name : String) : Call Unit := do
  let c ← controller
  if (c.machines.get? name).isNone then raise .keyError
  else
    adjust fun c => { c with machines := c.machines.moveToEnd name }
    JobQueue.moveMachineToEnd name

def setMachinesWith (connect : String → Except Error Unit) (machines : Machines) :
    Call Unit := do
  let c ← controller
  let added := addedNames c.machines machines.dict
  let removed := removedNames c.machines machines.dict
  let changed := common c.machines machines.dict .minor
  JobQueue.enter
  ensuring (do
      let shutDownControllers ← removeMachines (c.nameOrder.list removed)
      adjust fun c => c.stopped shutDownControllers
      forEach (c.nameOrder.list changed) (changeMachine machines.dict)
      forEach (c.nameOrder.list added) (addMachineWith connect machines.dict)
      forEach machines.dict.keys moveToEnd)
    (JobQueue.exit callbacks)
  adjust fun c => { c with changedMachines := c.changedMachines ∪ added ∪ changed ∪ removed }

def setMachines (machines : Machines) : Call Unit := setMachinesWith connectAny machines

end Controller

end SpallocServer
