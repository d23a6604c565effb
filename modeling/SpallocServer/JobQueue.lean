import SpallocServer.Allocator

namespace SpallocServer

open Foundation

/-- What is given for `machine`: a name, or an object that cannot be hashed. -/
inductive MachineName where
  | name (name : String)
  | unhashable (type : String)
  deriving DecidableEq, Repr

/-- What is given for `tags`: some tags, or an object that `set` refuses. -/
inductive Tags where
  | of (tags : Finset String)
  | refused (message : String)
  deriving DecidableEq

/-- `set(tags)` -/
def Tags.set : Tags → Except Error (Finset String)
  | .of tags => .ok tags
  | .refused message => .error (.typeError message)

namespace JobQueue

/-- `_Job`. The machine is a reference. -/
structure Job where
  id : ℕ
  pending : Bool
  machineName : Option MachineName
  tags : Finset String
  request : Request
  machine : Option ℕ
  allocationId : Option ℕ

/-- `_Machine`. The queue holds references to jobs. -/
structure Machine where
  name : String
  tags : Finset String
  allocator : Allocator
  queue : List ℕ

def Job.null : Job := ⟨0, false, none, ∅, { args := .nil }, none, none⟩

def Machine.null : Machine :=
  ⟨"", ∅, Allocator.new 0 0 ∅ ∅ 1 0 (fun _ => 0) .least, []⟩

/-- Something for `tags is None`. -/
def tagsOr (tags : Option (Finset String)) : Finset String := tags.getD {"default"}

def jobTags (machine : Option MachineName) (tags : Option Tags) : Except Error (Finset String) :=
  if machine.isSome ∧ tags.isSome then
    .error (.typeError "Only one of machine and tags may be specified for a job.")
  else if machine.isSome then .ok ∅
  else (tags.getD (.of {"default"})).set

def hashable : Option MachineName → Except Error Unit
  | some (.unhashable type) => .error (.typeError s!"unhashable type: '{type}'")
  | _ => .ok ()

end JobQueue

/-- The jobs and machines by name, and the objects these names refer to. -/
structure JobQueue where
  secondsBeforeFree : ℤ
  machines : Dict String ℕ
  jobs : Dict ℕ ℕ
  postpone : ℤ
  machine : ℕ → JobQueue.Machine
  job : ℕ → JobQueue.Job
  nextMachine : ℕ
  nextJob : ℕ
  /-- What `datetime.now()` will answer to the allocator of each machine. -/
  clock : ℕ → ℕ → ℤ
  setPop : SetPop

/-- The functions a job queue reports to. They act on a state of their own. -/
structure Callbacks (ω : Type) where
  onAllocate : ℕ → String → Finset Board → Finset BoardLink → WrapAround → Prog Error ω Unit
  onFree : ℕ → Option String → Prog Error ω Unit
  onCancel : ℕ → Option String → Prog Error ω Unit

namespace JobQueue

def new (secondsBeforeFree : ℤ) (clock : ℕ → ℕ → ℤ) (setPop : SetPop) : JobQueue where
  secondsBeforeFree := secondsBeforeFree
  machines := Dict.empty
  jobs := Dict.empty
  postpone := 0
  machine _ := Machine.null
  job _ := Job.null
  nextMachine := 0
  nextJob := 0
  clock := clock
  setPop := setPop

def setMachine (q : JobQueue) (m : ℕ) (machine : Machine) : JobQueue :=
  { q with machine := Function.update q.machine m machine }

def setJob (q : JobQueue) (j : ℕ) (job : Job) : JobQueue :=
  { q with job := Function.update q.job j job }

def setAllocator (q : JobQueue) (m : ℕ) (a : Allocator) : JobQueue :=
  q.setMachine m { q.machine m with allocator := a }

def setQueue (q : JobQueue) (m : ℕ) (queue : List ℕ) : JobQueue :=
  q.setMachine m { q.machine m with queue := queue }

def placed (q : JobQueue) (j m : ℕ) (allocationId : ℕ) : JobQueue :=
  q.setJob j { q.job j with
    pending := false
    machine := some m
    allocationId := some allocationId }

def withdrawn (q : JobQueue) (j : ℕ) : JobQueue := q.setJob j { q.job j with pending := false }

def dropped (q : JobQueue) (id : ℕ) : JobQueue := { q with jobs := q.jobs.erase id }

def cleared (q : JobQueue) : JobQueue :=
  { q with machine := fun m =>
      if m ∈ q.machines.values then { q.machine m with queue := [] } else q.machine m }

def created (q : JobQueue) (job : Job) : JobQueue :=
  { q.setJob q.nextJob job with
    jobs := q.jobs.set job.id q.nextJob
    nextJob := q.nextJob + 1 }

def added (q : JobQueue) (name : String) (width height : ℤ) (tags : Option (Finset String))
    (deadBoards : Finset Board) (deadLinks : Finset BoardLink) : JobQueue :=
  { q.setMachine q.nextMachine
      { name := name
        tags := tagsOr tags
        allocator := .new width height deadBoards deadLinks 1 q.secondsBeforeFree
          (q.clock q.nextMachine) q.setPop
        queue := [] } with
    machines := q.machines.set name q.nextMachine
    nextMachine := q.nextMachine + 1 }

def Machine.modified (m : Machine) (tags : Option (Finset String))
    (deadBoards : Option (Finset Board)) (deadLinks : Option (Finset BoardLink)) : Machine :=
  { m with
    tags := tags.getD m.tags
    allocator := { m.allocator with
      deadBoards := deadBoards.getD m.allocator.deadBoards
      deadLinks := deadLinks.getD m.allocator.deadLinks } }

def candidates (q : JobQueue) (j : ℕ) : List ℕ :=
  match (q.job j).machineName with
  | some (.name name) => (q.machines.get? name).toList
  | some (.unhashable _) => []
  | none => q.machines.values.filter fun m => (q.job j).tags ⊆ (q.machine m).tags

open Prog

variable {ω : Type} (cb : Callbacks ω)

abbrev Call (ω α : Type) := Prog Error (JobQueue × ω) α

def queue : Call ω JobQueue := do
  let s ← state
  return s.1

def change (f : JobQueue → JobQueue) : Call ω Unit := update fun s => (f s.1, s.2)

def report (m : Prog Error ω Unit) : Call ω Unit := zoom Prod.snd (fun w s => (s.1, w)) m

def onAllocator {α : Type} (m : ℕ) (p : Prog Error Allocator α) : Call ω α :=
  zoom (fun s => (s.1.machine m).allocator) (fun a s => (s.1.setAllocator m a, s.2)) p

def tryJob (j m : ℕ) : Call ω Bool := do
  let q ← queue
  match ← onAllocator m (Allocator.alloc (q.job j).request) with
  | none => return false
  | some allocation =>
    change fun q => q.placed j m allocation.id
    report (cb.onAllocate (q.job j).id (q.machine m).name allocation.boards allocation.periphery
      allocation.torus)
    return true

/-- Process the head of the queue of a machine, once the queue has no more than `n` jobs to
skip. -/
def processHead (m : ℕ) : ℕ → Call ω Bool
  | 0 => return false
  | n + 1 => do
    let q ← queue
    match (q.machine m).queue with
    | [] => return false
    | j :: rest =>
      if ¬(q.job j).pending then
        change fun q => q.setQueue m rest
        processHead m n
      else if ← tryJob cb j m then
        change fun q => q.setQueue m rest
        return true
      else return false

def processMachines : List ℕ → Call ω Bool
  | [] => return false
  | m :: machines => do
    let q ← queue
    let changed ← processHead cb m (q.machine m).queue.length
    let changed' ← processMachines machines
    return changed || changed'

/-- Keep going until no more jobs can be started. -/
def processLoop : ℕ → Call ω Unit
  | 0 => return ()
  | n + 1 => do
    let q ← queue
    if ← processMachines cb q.machines.values then processLoop n
    else return ()

/-- All jobs in all queues. -/
def queued (q : JobQueue) : ℕ := (q.machines.values.map fun m => (q.machine m).queue.length).sum

/-- `_process_queue`. Every turn but the last takes a job from a queue. -/
def processQueue : Call ω Unit := do
  let q ← queue
  if q.postpone ≠ 0 then return ()
  else processLoop cb (q.queued + 1)

def destroyJob (id : ℕ) (reason : Option String) : Call ω Unit := do
  let q ← queue
  match q.jobs.get? id with
  -- `None.pending`
  | none => raise .attributeError
  | some j =>
    if (q.job j).pending then
      change fun q => q.withdrawn j
      report (cb.onCancel (q.job j).id reason)
      change fun q => q.dropped id
    else report (cb.onFree (q.job j).id reason)
    processQueue cb

def offer (j : ℕ) : List ℕ → Call ω Bool
  | [] => return false
  | m :: machines => do
    let q ← queue
    if ← ofExcept ((q.machine m).allocator.allocPossible (q.job j).request) then
      change fun q => q.setQueue m ((q.machine m).queue ++ [j])
      let _ ← offer j machines
      return true
    else offer j machines

/-- `_enqueue_job` -/
def enqueueJob (j : ℕ) : Call ω Unit := do
  let q ← queue
  if q.postpone ≠ 0 then return ()
  else
    ofExcept (hashable (q.job j).machineName)
    let found ← offer j (q.candidates j)
    if ¬found then destroyJob cb (q.job j).id (some "No suitable machines available.")
    processQueue cb

/-- An iterator raises when it is asked for more after the dictionary was changed. -/
def mutated : Error := .runtimeError "OrderedDict mutated during iteration"

def regenerateLoop : List ℕ → Call ω Unit
  | [] => return ()
  | j :: rest => do
    let q ← queue
    if (q.job j).pending then enqueueJob cb j
    let q' ← queue
    if q'.jobs.keys ≠ q.jobs.keys ∧ rest ≠ [] then raise mutated
    else regenerateLoop rest

/-- `_regenerate_queues` -/
def regenerateQueues : Call ω Unit := do
  let q ← queue
  if q.postpone ≠ 0 then return ()
  else
    change cleared
    regenerateLoop cb q.jobs.values

/-- `__enter__` -/
def enter : Call ω Unit := change fun q => { q with postpone := q.postpone + 1 }

/-- `__exit__` -/
def exit : Call ω Unit := do
  change fun q => { q with postpone := q.postpone - 1 }
  regenerateQueues cb

def addMachine (name : String) (width height : ℤ) (tags : Option (Finset String))
    (deadBoards : Finset Board) (deadLinks : Finset BoardLink) : Call ω Unit := do
  let q ← queue
  if (q.machines.get? name).isSome then
    raise (.valueError s!"Machine name {name} already in use.")
  else
    change fun q => q.added name width height tags deadBoards deadLinks
    regenerateQueues cb

def moveMachineToEnd (name : String) : Call ω Unit := do
  let q ← queue
  if (q.machines.get? name).isNone then raise .keyError
  else change fun q => { q with machines := q.machines.moveToEnd name }

def modifyMachine (name : String) (tags : Option (Finset String))
    (deadBoards : Option (Finset Board)) (deadLinks : Option (Finset BoardLink)) :
    Call ω Unit := do
  let q ← queue
  match q.machines.get? name with
  | none => raise .keyError
  | some m =>
    change fun q => q.setMachine m ((q.machine m).modified tags deadBoards deadLinks)
    regenerateQueues cb

def free (id : ℕ) : Call ω Unit := do
  let q ← queue
  match q.jobs.get? id with
  | none => return ()
  | some j =>
    change fun q => q.dropped id
    match (q.job j).machine with
    -- `None.allocator`
    | none => raise .attributeError
    | some m =>
      match (q.job j).allocationId with
      | none => raise .keyError
      | some allocationId =>
        onAllocator m (Allocator.free allocationId)
        processQueue cb

def removeMachine (name : String) : Call ω Unit := do
  let q ← queue
  match q.machines.get? name with
  | none => raise .keyError
  | some m =>
    enter
    ensuring (do
        -- the jobs are copied first
        forEach q.jobs.values fun j => do
          let q ← queue
          if (q.job j).machine = some m then
            destroyJob cb (q.job j).id (some "Machine removed.")
            free cb (q.job j).id
        change fun q => { q with machines := q.machines.erase name })
      (exit cb)

def createJob (jobId : Option ℕ) (machine : Option MachineName) (tags : Option Tags)
    (request : Request) : Call ω Unit := do
  let q ← queue
  match jobId with
  | none => raise (.typeError "job_id must be specified")
  | some id =>
    if (q.jobs.get? id).isSome then raise (.valueError s!"job_id {id} is not unique")
    else
      let tags ← ofExcept (jobTags machine tags)
      change fun q => q.created ⟨id, true, machine, tags, request, none, none⟩
      enqueueJob cb q.nextJob

def checkFreeMachines : List ℕ → Call ω Bool
  | [] => return false
  | m :: machines => do
    let changed ← onAllocator m Allocator.checkFree
    let changed' ← checkFreeMachines machines
    return changed || changed'

def checkFree : Call ω Unit := do
  let q ← queue
  if q.postpone ≠ 0 then return ()
  else if ← checkFreeMachines q.machines.values then processQueue cb
  else return ()

end JobQueue

end SpallocServer
