import Mathlib.Data.Finset.Max
import SpallocServer.Coordinates.Chips
import SpallocServer.Controller

namespace SpallocServer.Controller

open Foundation Coordinates

/-- What `where_is` is asked for. -/
inductive Query where
  | logical (machine : String) (x y z : ℤ)
  | physical (machine : String) (cabinet frame board : ℤ)
  | chip (machine : String) (chipX chipY : ℤ)
  | jobChip (jobId : ℕ) (chipX chipY : ℤ)

/-- What `where_is` answers. -/
structure Place where
  machine : String
  logical : Board
  physical : Configuration.Location
  chip : ℤ × ℤ
  boardChip : ℤ × ℤ
  jobId : Option ℕ
  jobChip : Option (ℤ × ℤ)
  deriving DecidableEq

/-- `%`, with the sign of the divisor. -/
def modulo (a n : ℤ) : Except Error ℤ :=
  if n = 0 then .error .zeroDivisionError else .ok (a.fmod n)

def getBoardPosition (c : Controller) (machineName : String) (x y z : ℤ) :
    Option Configuration.Location :=
  match c.machines.get? machineName with
  | none => none
  | some machine => machine.boardLocations.get? (x, y, z)

def getBoardAtPosition (c : Controller) (machineName : String) (cabinet frame board : ℤ) :
    Option Board :=
  match c.machines.get? machineName with
  | none => none
  | some machine =>
    (machine.boardLocations.entries.find? fun p => p.2 = (cabinet, frame, board)).map (·.1)

/-- `_job_for_location`, with the jobs left to be looked at. -/
def jobForLocation (c : Controller) (machine : Configuration.Machine) (b : Board) :
    List ℕ → Except Error (Option ℕ)
  | [] => .ok none
  | id :: jobs =>
    match (c.job id).allocatedMachine with
    -- `None == machine`
    | none => jobForLocation c machine b jobs
    | some allocated =>
      if allocated.Same machine then
        match (c.job id).boards with
        | none => .error notIterable
        | some boards => if b ∈ boards then .ok (some id) else jobForLocation c machine b jobs
      else jobForLocation c machine b jobs

/-- `map(min, zip(*boards))` -/
def lowest (boards : Finset Board) : Except Error Board :=
  if h : boards.Nonempty then
    .ok ((boards.image (·.1)).min' (h.image _), (boards.image (·.2.1)).min' (h.image _),
      (boards.image (·.2.2)).min' (h.image _))
  else .error (.valueError "not enough values to unpack (expected 3, got 0)")

def jobCorner (job : Job) : Except Error Board :=
  match job.boards with
  | none => .error notIterable
  | some boards => lowest boards

/-- `%`, by the width or the height of a job. -/
def jobModulo (a : ℤ) : Option ℤ → Except Error ℤ
  | none => .error (.typeError "unsupported operand type(s) for %: 'int' and 'NoneType'")
  | some n => modulo a n

def getJobChip (c : Controller) (id : Option ℕ) (b : Board) (boardChip : ℤ × ℤ) :
    Except Error (Option (ℤ × ℤ)) :=
  match id with
  | none => .ok none
  | some id => do
    let o ← jobCorner (c.job id)
    let jobChip := boardToChip (b.1 - o.1) (b.2.1 - o.2.1) (b.2.2 - o.2.2)
    let x ← jobModulo (jobChip.1 + boardChip.1) (c.job id).width
    let y ← jobModulo (jobChip.2 + boardChip.2) (c.job id).height
    return some (x, y)

/-- What all queries do once they have come down to a chip of a machine. Where a job is `wanted`,
the board has to be its own. -/
def describe (g : Geometry) (c : Controller) (machineName : String)
    (machine : Configuration.Machine) (chipX chipY : ℤ) (wanted : Option ℕ) :
    Except Error (Option Place) := do
  let (chipW, chipH) := triadDimensionsToChips machine.width machine.height ⟨true, true⟩
  let chipX ← modulo chipX chipW
  let chipY ← modulo chipY chipH
  let boardChip := g.getLocalChipCoordinate chipX chipY
  let b ← chipToBoard g chipX chipY chipW chipH
  match machine.boardLocations.get? b with
  | none => return none
  | some physical =>
    let jobId ← c.jobForLocation machine b c.jobs
    if wanted ≠ none ∧ jobId ≠ wanted then return none
    else
      let jobChip ← c.getJobChip jobId b boardChip
      return some ⟨machineName, b, physical, (chipX, chipY), boardChip, jobId, jobChip⟩

/-- `_where_is_by_logical_triple` -/
def whereIsByLogicalTriple (g : Geometry) (c : Controller) (machineName : String)
    (x y z : ℤ) : Except Error (Option Place) :=
  match c.machines.get? machineName with
  | none => .ok none
  | some machine =>
    let (chipX, chipY) := boardToChip x y z
    c.describe g machineName machine chipX chipY none

/-- `_where_is_by_physical_triple` -/
def whereIsByPhysicalTriple (g : Geometry) (c : Controller) (machineName : String)
    (cabinet frame board : ℤ) : Except Error (Option Place) :=
  match c.machines.get? machineName with
  | none => .ok none
  | some machine =>
    match c.getBoardAtPosition machineName cabinet frame board with
    | none => .ok none
    | some (x, y, z) =>
      let (chipX, chipY) := boardToChip x y z
      c.describe g machineName machine chipX chipY none

/-- `_where_is_by_chip_coordinate` -/
def whereIsByChipCoordinate (g : Geometry) (c : Controller) (machineName : String)
    (chipX chipY : ℤ) : Except Error (Option Place) :=
  match c.machines.get? machineName with
  | none => .ok none
  | some machine => c.describe g machineName machine chipX chipY none

/-- `_where_is_by_job_chip_coordinate` -/
def whereIsByJobChipCoordinate (g : Geometry) (c : Controller) (jobId : ℕ)
    (chipX chipY : ℤ) : Except Error (Option Place) := do
  if jobId ∉ c.jobs ∨ (c.job jobId).boards = none then return none
  else
    match (c.job jobId).allocatedMachine with
    | none => .error .attributeError
    | some allocated =>
      let o ← jobCorner (c.job jobId)
      let (dx, dy) := boardToChip o.1 o.2.1 o.2.2
      match c.machines.get? allocated.name with
      | none => return none
      | some machine =>
        c.describe g allocated.name machine (chipX + dx) (chipY + dy) (some jobId)

def whereIs (g : Geometry) (c : Controller) : Query → Except Error (Option Place)
  | .logical machine x y z => c.whereIsByLogicalTriple g machine x y z
  | .physical machine cabinet frame board => c.whereIsByPhysicalTriple g machine cabinet frame board
  | .chip machine chipX chipY => c.whereIsByChipCoordinate g machine chipX chipY
  | .jobChip jobId chipX chipY => c.whereIsByJobChipCoordinate g jobId chipX chipY

end SpallocServer.Controller
