import SpallocServer.Foundation.Framing
import SpallocServer.Controller

namespace SpallocServer

open Foundation Prog

/-- What `dejson` yields. -/
inductive Json where
  | null
  | bool (b : Bool)
  | number (n : ℚ)
  | string (s : String)
  | array (elements : List Json)
  | object (fields : List (String × Json))

/-- What a set of watches can hold. -/
inductive WatchId where
  | number (n : ℚ)
  | string (s : String)
  deriving DecidableEq

/-- `None` watches everything. -/
abbrev Watches := Option (Finset WatchId)

/-- What is sent to a client. -/
inductive Message where
  | return (value : Json)
  | exception (e : Error)
  | changes (label : String) (ids : Finset WatchId)

/-- Sockets are told apart, as Python objects are. -/
abbrev Socket := ℕ

abbrev Bytes := List UInt8

/-- The server, with the sockets it uses. -/
structure Server where
  controller : JobQueue × Controller
  clientBuffers : Dict Socket Bytes
  clientJobWatches : Dict Socket Watches
  clientMachineWatches : Dict Socket Watches
  serverSocket : Option Socket
  /-- The descriptors that are polled, where there is `select.poll`. -/
  poll : Option (Finset ℤ)
  fdmap : Dict ℤ Socket
  /-- The descriptor of a socket. It is -1 when the socket is closed. -/
  fileno : Socket → ℤ
  /-- What each attempt to send to a socket raises, if it does. -/
  sending : Socket → ℕ → Except Error Unit
  /-- The number of attempts to send to a socket. -/
  sends : Socket → ℕ
  sent : List (Socket × Message)
  /-- The lines that were ever passed to `_handle_command`. -/
  handled : List (Socket × Bytes)

namespace Server

abbrev Call (α : Type) := Prog Error Server α

/-- A server without clients. Where there is `select.poll`, nothing is polled. -/
def new (controller : JobQueue × Controller) (poll : Option (Finset ℤ)) (fileno : Socket → ℤ)
    (sending : Socket → ℕ → Except Error Unit) : Server where
  controller := controller
  clientBuffers := Dict.empty
  clientJobWatches := Dict.empty
  clientMachineWatches := Dict.empty
  serverSocket := none
  poll := poll
  fdmap := Dict.empty
  fileno := fileno
  sending := sending
  sends _ := 0
  sent := []
  handled := []

/-- `_poll.unregister` -/
def unregisterPoll (channel : Socket) : Call Unit := do
  let s ← state
  match s.poll with
  | none => return ()
  | some fds =>
    if s.fileno channel < 0 then
      raise (.valueError "file descriptor cannot be a negative integer (-1)")
    else if s.fileno channel ∈ fds then
      update fun s => { s with poll := some (fds.erase (s.fileno channel)) }
    else raise .keyError

def unregisterChannel (channel : Socket) : Call Unit := do
  unregisterPoll channel
  update fun s => { s with fdmap := s.fdmap.erase (s.fileno channel) }

/-- `_poll.register` -/
def registerPoll (channel : Socket) : Call Unit := do
  let s ← state
  match s.poll with
  | none => return ()
  | some fds =>
    if s.fileno channel < 0 then
      raise (.valueError "file descriptor cannot be a negative integer (-1)")
    else update fun s => { s with poll := some (insert (s.fileno channel) fds) }

def registerChannel (channel : Socket) : Call Unit := do
  registerPoll channel
  update fun s => { s with fdmap := s.fdmap.set (s.fileno channel) channel }

/-- `_clear_watches` -/
def clearWatches (s : Server) (client : Socket) : Server :=
  { s with
    clientJobWatches := s.clientJobWatches.erase client
    clientMachineWatches := s.clientMachineWatches.erase client }

/-- `close()` of a socket -/
def close (s : Server) (socket : Socket) : Server :=
  { s with fileno := Function.update s.fileno socket (-1) }

def ignoringKeyError (m : Call Unit) : Call Unit :=
  rescue m fun e => if e = .keyError then return () else raise e

def disconnectClient (client : Socket) : Call Unit := do
  update fun s => { s with clientBuffers := s.clientBuffers.erase client }
  update fun s => s.clearWatches client
  ignoringKeyError (unregisterChannel client)
  update fun s => s.close client

/-- `accept()` yields a socket, unless it raises an `IOError`. -/
def acceptClient (accepted : Option Socket) : Call Unit :=
  match accepted with
  | none => return ()
  | some client => do
    registerChannel client
    update fun s => { s with clientBuffers := s.clientBuffers.set client [] }

/-- `client.send(json(message))` -/
def send (client : Socket) (message : Message) : Call Unit := do
  let s ← state
  update fun s => { s with sends := Function.update s.sends client (s.sends client + 1) }
  ofExcept (s.sending client (s.sends client))
  update fun s => { s with sent := s.sent ++ [(client, message)] }

def msgClient (client : Socket) (message : Message) : Call Unit :=
  rescue (send client message) fun e => do
    disconnectClient client
    raise e

def watchId : Json → Except Error WatchId
  | .null => .error (.typeError "None")
  | .bool b => .ok (.number (if b then 1 else 0))
  | .number n => .ok (.number n)
  | .string s => .ok (.string s)
  | .array _ => .error (.typeError "unhashable type: 'list'")
  | .object _ => .error (.typeError "unhashable type: 'dict'")

/-- `_register_for_notifications` -/
def registerForNotifications (watchset : Dict Socket Watches) (client : Socket) :
    Json → Except Error (Dict Socket Watches)
  | .null => .ok (watchset.set client none)
  | id =>
    match watchset.get? client with
    | none => do
      let id ← watchId id
      return watchset.set client (some {id})
    | some (some watches) => do
      let id ← watchId id
      return watchset.set client (some (insert id watches))
    -- already notified about all changes
    | some none => .ok watchset

/-- `_unregister_for_notifications` -/
def unregisterForNotifications (watchset : Dict Socket Watches) (client : Socket) (id : Json) :
    Except Error (Dict Socket Watches) :=
  match watchset.get? client with
  | none => .ok watchset
  | some watches =>
    match id, watches with
    | .null, _ => .ok (watchset.erase client)
    | _, none => .ok watchset
    | id, some watches => do
      let id ← watchId id
      return if watches.erase id = ∅ then watchset.erase client
        else watchset.set client (some (watches.erase id))

def notifyJob (client : Socket) (id : Json) : Call Unit := do
  let s ← state
  let watches ← ofExcept (registerForNotifications s.clientJobWatches client id)
  update fun s => { s with clientJobWatches := watches }

def noNotifyJob (client : Socket) (id : Json) : Call Unit := do
  let s ← state
  let watches ← ofExcept (unregisterForNotifications s.clientJobWatches client id)
  update fun s => { s with clientJobWatches := watches }

def notifyMachine (client : Socket) (id : Json) : Call Unit := do
  let s ← state
  let watches ← ofExcept (registerForNotifications s.clientMachineWatches client id)
  update fun s => { s with clientMachineWatches := watches }

def noNotifyMachine (client : Socket) (id : Json) : Call Unit := do
  let s ← state
  let watches ← ofExcept (unregisterForNotifications s.clientMachineWatches client id)
  update fun s => { s with clientMachineWatches := watches }

def watched (changes : Finset WatchId) : Watches → Option (Finset WatchId)
  | none => some changes
  | some items => if Disjoint items changes then none else some (changes ∩ items)

def sendNotification (label : String) (changes : Finset WatchId) (client : Socket)
    (items : Watches) : Call Unit :=
  match watched changes items with
  | none => return ()
  | some ids => rescue (msgClient client (.changes label ids)) fun e =>
      match e with
      | .osError _ => return ()
      | e => raise e

/-- `_send_notifications` -/
def sendNotifications (label : String) (changes : Finset WatchId)
    (watches : Dict Socket Watches) : Call Unit :=
  if changes = ∅ then return ()
  else forEach watches.entries fun (client, items) => sendNotification label changes client items

/-- `changed_jobs` of the controller -/
def changedJobs : Call (Finset ℕ) := do
  let s ← state
  update fun s => { s with
    controller := (s.controller.1, { s.controller.2 with changedJobs := ∅ }) }
  return s.controller.2.changedJobs

/-- `changed_machines` of the controller -/
def changedMachines : Call (Finset String) := do
  let s ← state
  update fun s => { s with
    controller := (s.controller.1, { s.controller.2 with changedMachines := ∅ }) }
  return s.controller.2.changedMachines

def jobId (id : ℕ) : WatchId := .number id

def sendChangeNotifications : Call Unit := do
  let jobs ← changedJobs
  let s ← state
  sendNotifications "jobs_changed" (jobs.image jobId) s.clientJobWatches
  let machines ← changedMachines
  let s ← state
  sendNotifications "machines_changed" (machines.image WatchId.string) s.clientMachineWatches

/-- `_COMMANDS` -/
def commands : List String :=
  ["version", "create_job", "job_keepalive", "get_job_state", "get_job_machine_info",
    "power_on_job_boards", "power_off_job_boards", "destroy_job", "notify_job", "no_notify_job",
    "notify_machine", "no_notify_machine", "list_jobs", "list_machines", "get_board_position",
    "get_board_at_position", "where_is"]

/-- `"command" not in cmd_obj`, and what it is there. -/
def commandName : Json → Except Error Json
  | .object fields =>
    match fields.lookup "command" with
    | none => .error (.osError "no command name given")
    | some name => .ok name
  | .array elements =>
    if elements.any fun element => match element with
      | .string s => s = "command"
      | _ => false
    then .error (.typeError "list indices must be integers or slices, not str")
    else .error (.osError "no command name given")
  | .string s =>
    if "command".toList <:+: s.toList then
      .error (.typeError "string indices must be integers")
    else .error (.osError "no command name given")
  | _ => .error (.typeError "argument is not iterable")

def field (name : String) : Json → Option Json
  | .object fields => fields.lookup name
  | _ => none

def arguments (json : Option Json) : Except Error (List Json) :=
  match json with
  | none => .ok []
  | some (.array elements) => .ok elements
  | some _ => .error (.osError "bad args; must be JSON array")

def keywords (json : Option Json) : Except Error (List (String × Json)) :=
  match json with
  | none => .ok []
  | some (.object fields) => .ok (fields.filter (·.1 ≠ "client"))
  | some _ => .error (.osError "bad kwargs: must be JSON dictionary")

def parse (json : Json) : Except Error (String × List Json × List (String × Json)) :=
  match commandName json with
  | .error e => .error e
  | .ok (.string name) =>
    if name ∉ commands then .error (.osError "unrecognised command name")
    else do
      let args ← arguments (field "args" json)
      let kwargs ← keywords (field "kwargs" json)
      return (name, args, kwargs)
  | .ok _ => .error (.osError "parsed gibberish from user")

/-- The one argument of a command, which is `None` unless it is given. -/
def argument (name : String) (args : List Json) (kwargs : List (String × Json)) :
    Except Error Json :=
  match args, kwargs with
  | [], [] => .ok .null
  | [value], [] => .ok value
  | [], [(key, value)] =>
    if key = name then .ok value else .error (.typeError "got an unexpected keyword argument")
  | _, _ => .error (.typeError "takes from 2 to 3 positional arguments")

def notify (name : String) (args : List Json) (kwargs : List (String × Json))
    (f : Json → Call Unit) : Call Json := do
  let id ← ofExcept (argument name args kwargs)
  f id
  return .null

/-- How the controller answers a command with its arguments. -/
abbrev Answers := String → Socket → List Json → List (String × Json) →
  Prog Error (JobQueue × Controller) Json

section Commands

-- `dejson(line.decode("utf-8"))`
variable (dejson : Bytes → Except Error Json)

-- The commands that the controller answers.
variable (answer : Answers)

def execute (name : String) (client : Socket) (args : List Json)
    (kwargs : List (String × Json)) : Call Json :=
  match name with
  | "notify_job" => notify "job_id" args kwargs (notifyJob client)
  | "no_notify_job" => notify "job_id" args kwargs (noNotifyJob client)
  | "notify_machine" => notify "machine_name" args kwargs (notifyMachine client)
  | "no_notify_machine" => notify "machine_name" args kwargs (noNotifyMachine client)
  | name => zoom Server.controller (fun c s => { s with controller := c })
      (answer name client args kwargs)

def decode (line : Bytes) : Except Error (String × List Json × List (String × Json)) :=
  match dejson line with
  | .error e => .error e
  | .ok json => parse json

def handleCommand (client : Socket) (line : Bytes) : Call Message := do
  update fun s => { s with handled := s.handled ++ [(client, line)] }
  let (name, args, kwargs) ← ofExcept (decode dejson line)
  rescue (Message.return <$> execute answer name client args kwargs) fun e =>
    return Message.exception e

def newline : UInt8 := 10

def respond (client : Socket) (line : Bytes) : Call Unit :=
  if line = [] then return ()
  else do
    let message ← handleCommand dejson answer client line
    msgClient client message

def processLines (client : Socket) : ℕ → Call Unit
  | 0 => return ()
  | bound + 1 => do
    let s ← state
    match s.clientBuffers.get? client with
    | none => raise .keyError
    | some buffer =>
      match Framing.partition newline buffer with
      | none => return ()
      | some (line, rest) => do
        update fun s => { s with clientBuffers := s.clientBuffers.set client rest }
        respond dejson answer client line
        processLines client bound

/-- `_client_buffers[client] += data`, then the loop. -/
def receive (client : Socket) (data : Bytes) : Call Unit := do
  let s ← state
  match s.clientBuffers.get? client with
  | none => raise .keyError
  | some buffer =>
    update fun s => { s with clientBuffers := s.clientBuffers.set client (buffer ++ data) }
    processLines dejson answer client ((buffer ++ data).length + 1)

/-- `recv()` yields what there is, unless it raises an `IOError`, and `getpeername()` may raise
something. -/
def handleCommands (client : Socket) (recv : Option Bytes) (peername : Except Error Unit) :
    Call Unit :=
  match recv with
  | none => disconnectClient client
  | some [] => disconnectClient client
  | some data =>
    rescue (do
      ofExcept peername
      receive dejson answer client data) fun _ => disconnectClient client

def polled (s : Server) (channel : Socket) : Prop :=
  (∀ fds, s.poll = some fds → s.fileno channel ∈ fds) ∧
    s.fdmap.get? (s.fileno channel) = some channel

instance (s : Server) (channel : Socket) : Decidable (s.polled channel) :=
  inferInstanceAs (Decidable (_ ∧ _))

/-- A turn of the loop of `_run` in which a client has sent something. -/
def serve (client : Socket) (data : Bytes) : Call Unit := do
  let s ← state
  if s.polled client then handleCommands dejson answer client (some data) (.ok ())
  else return ()

end Commands

end Server

end SpallocServer
