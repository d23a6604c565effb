import SpallocServer.Coordinates

namespace SpallocServer

structure LinkRequest where
  board : ℤ
  link : Links
  enable : Bool

/-- Requests to be done together. Whose job it is stands for `on_done`. -/
structure AtomicRequests where
  onDone : ℕ
  powerOnBoards : List ℤ
  powerOffBoards : List ℤ
  linkRequests : List LinkRequest

namespace AtomicRequests

def new (onDone : ℕ) : AtomicRequests := ⟨onDone, [], [], []⟩

def power (r : AtomicRequests) (board : ℤ) (power : Bool) : AtomicRequests :=
  if power then { r with powerOnBoards := r.powerOnBoards ++ [board] }
  else { r with powerOffBoards := r.powerOffBoards ++ [board] }

def link (r : AtomicRequests) (board : ℤ) (link : Links) (enable : Bool) : AtomicRequests :=
  { r with linkRequests := r.linkRequests ++ [⟨board, link, enable⟩] }

/-- The boards that are powered or have a link set. -/
def boards (r : AtomicRequests) : List ℤ :=
  r.powerOnBoards ++ r.powerOffBoards ++ r.linkRequests.map (·.board)

variable {r : AtomicRequests} {n board : ℤ}

@[simp] theorem boards_new (onDone : ℕ) : (new onDone).boards = [] := rfl

@[simp] theorem onDone_new (onDone : ℕ) : (new onDone).onDone = onDone := rfl

@[simp] theorem onDone_power (power : Bool) : (r.power board power).onDone = r.onDone := by
  cases power <;> rfl

@[simp] theorem onDone_link (link : Links) (enable : Bool) :
    (r.link board link enable).onDone = r.onDone := rfl

theorem mem_boards_power (power : Bool) :
    n ∈ (r.power board power).boards ↔ n = board ∨ n ∈ r.boards := by
  cases power <;> simp only [AtomicRequests.power, boards, List.mem_append, List.mem_singleton,
    if_true, if_false, Bool.false_eq_true] <;> tauto

theorem mem_boards_link (link : Links) (enable : Bool) :
    n ∈ (r.link board link enable).boards ↔ n = board ∨ n ∈ r.boards := by
  simp only [AtomicRequests.link, boards, List.mem_append, List.map_append, List.map_cons,
    List.map_nil, List.mem_singleton]
  tauto

end AtomicRequests

/-- The requests that have been accepted and not been completed, the first being carried out. -/
structure AsyncBmpController where
  hostname : String
  stopped : Bool
  requests : List AtomicRequests

namespace AsyncBmpController

def new (hostname : String) : AsyncBmpController := ⟨hostname, false, []⟩

def accepted (b : AsyncBmpController) (r : AtomicRequests) : AsyncBmpController :=
  { b with requests := b.requests ++ [r] }

def popped (b : AsyncBmpController) : AsyncBmpController :=
  { b with requests := b.requests.tail }

def stop (b : AsyncBmpController) : AsyncBmpController := { b with stopped := true }

/-- `reason` in the report of requests that failed. -/
def reason (b : AsyncBmpController) : String := s!"Requests failed on BMP {b.hostname}"

end AsyncBmpController

end SpallocServer
