import Mathlib.Data.Finset.Max
import SpallocServer.Foundation.Dict
import SpallocServer.Foundation.Program
import SpallocServer.CandidateFilter

namespace SpallocServer

open Foundation

inductive AllocationType where
  | triads
  | board
  | boards
  deriving DecidableEq, Repr

/-- A positional argument: `None`, a whole number, or an object of another type, which Python
does not compare with numbers. Sizes and coordinates with a fractional part, which split the
tree of triads between two of them, are left out. -/
inductive Value where
  | none
  | int (n : ℤ)
  | other (type : String)
  deriving DecidableEq, Repr

namespace Value

def typeName : Value → String
  | .none => "NoneType"
  | .int _ => "int"
  | .other type => type

/-- The number that an operator needs, or the `TypeError` it raises. -/
def num (message : String → String) : Value → Except Error ℤ
  | .int n => .ok n
  | v => .error (.typeError (message v.typeName))

/-- `v <= n`, `v > n` and the like -/
def against (op : String) (v : Value) : Except Error ℤ :=
  v.num fun t => s!"'{op}' not supported between instances of '{t}' and 'int'"

/-- `n <= v` -/
def above (v : Value) : Except Error ℤ :=
  v.num fun t => s!"'<=' not supported between instances of 'int' and '{t}'"

end Value

/-- What is given for `require_torus`: `False`, something else that counts as false, such as
`None` or 0, or something that counts as true. -/
inductive Flag where
  | false
  | falsy
  | truthy
  deriving DecidableEq, Repr

/-- `if flag:` -/
def Flag.holds (flag : Flag) : Bool := flag = .truthy

/-- Nothing, a number of boards, a width and height, the x, y and z of a board, or more
arguments than that. -/
inductive Args where
  | nil
  | one (x : Value)
  | two (x y : Value)
  | three (x y z : Value)
  | more (x y z : Value) (fourth : Option ℤ) (rest : List Flag)
  deriving DecidableEq, Repr

/-- The arguments of `alloc` and `alloc_possible`; `none` where a keyword is not given. -/
structure Request where
  args : Args
  minRatio : Option (Option ℚ) := none
  maxDeadBoards : Option (Option ℤ) := none
  maxDeadLinks : Option (Option ℤ) := none
  requireTorus : Option Flag := none
  deriving DecidableEq, Repr

namespace Request

def x (r : Request) : Value :=
  match r.args with
  | .nil => .none
  | .one x | .two x _ | .three x _ _ | .more x _ _ _ _ => x

def y (r : Request) : Value :=
  match r.args with
  | .nil | .one _ => .none
  | .two _ y | .three _ y _ | .more _ y _ _ _ => y

def z (r : Request) : Value :=
  match r.args with
  | .nil | .one _ | .two _ _ => .none
  | .three _ _ z | .more _ _ z _ _ => z

/-- `require_torus`, for `_alloc_type` and for single boards. -/
def torus (r : Request) : Flag :=
  match r.args with
  | .more _ _ _ _ (_ :: torus :: _) => torus
  | _ => r.requireTorus.getD .false

end Request

/-- The keyword arguments of a request for triads, once bound. -/
structure Constraints where
  minRatio : Option ℚ
  maxDeadBoards : Option ℤ
  maxDeadLinks : Option ℤ
  requireTorus : Bool

namespace Request

def constraints (r : Request) : Constraints where
  minRatio := r.minRatio.getD (some 0)
  maxDeadBoards := r.maxDeadBoards.getD none
  maxDeadLinks := r.maxDeadLinks.getD none
  requireTorus := r.torus.holds

def multipleValues (argument function : String) : Error :=
  .typeError s!"{function}() got multiple values for argument '{argument}'"

def tooMany (most given : ℕ) (function : String) : Error :=
  .typeError s!"{function}() takes from 1 to {most} positional arguments but {given} were given"

def once (parameters : List (String × Bool)) : Except (String → Error) Unit :=
  match parameters.find? Prod.snd with
  | some (argument, _) => .error (multipleValues argument)
  | none => .ok ()

def bindType (r : Request) : Except (String → Error) Unit :=
  match r.args with
  | .more _ _ _ _ rest => do
    once [("max_dead_boards", r.maxDeadBoards.isSome),
      ("max_dead_links", !rest.isEmpty && r.maxDeadLinks.isSome),
      ("require_torus", decide (1 < rest.length) && r.requireTorus.isSome),
      ("min_ratio", decide (2 < rest.length) && r.minRatio.isSome)]
    if 3 < rest.length then .error (tooMany 8 (rest.length + 5)) else .ok ()
  | _ => .ok ()

/-- A second positional argument is `None` here, and is taken for `min_ratio`. -/
def bindBoards (r : Request) : Except (String → Error) (Value × Constraints) :=
  match r.args with
  | .nil | .one _ => .ok (r.x, r.constraints)
  | .two x _ => do
    once [("min_ratio", r.minRatio.isSome)]
    return (x, { r.constraints with minRatio := none })
  | .three x _ _ => do
    once [("min_ratio", r.minRatio.isSome), ("max_dead_boards", r.maxDeadBoards.isSome)]
    -- without a ratio the limit of dead boards is never looked at
    return (x, { r.constraints with minRatio := none })
  | .more x _ _ fourth rest => do
    once [("min_ratio", r.minRatio.isSome), ("max_dead_boards", r.maxDeadBoards.isSome),
      ("max_dead_links", r.maxDeadLinks.isSome),
      ("require_torus", !rest.isEmpty && r.requireTorus.isSome)]
    if 1 < rest.length then .error (tooMany 6 (rest.length + 5))
    else
      return (x, {
        minRatio := none
        maxDeadBoards := none
        maxDeadLinks := fourth
        requireTorus := (rest.head?.getD (r.requireTorus.getD .false)).holds })

/-- A third positional argument is `None` here, and is taken for `max_dead_boards`. -/
def bindTriads (r : Request) : Except (String → Error) (Value × Value × Constraints) :=
  match r.args with
  | .nil | .one _ | .two _ _ => .ok (r.x, r.y, r.constraints)
  | .three x y _ => do
    once [("max_dead_boards", r.maxDeadBoards.isSome)]
    return (x, y, r.constraints)
  | .more x y _ fourth rest => do
    once [("max_dead_boards", r.maxDeadBoards.isSome),
      ("max_dead_links", r.maxDeadLinks.isSome),
      ("require_torus", !rest.isEmpty && r.requireTorus.isSome),
      ("min_ratio", decide (1 < rest.length) && r.minRatio.isSome)]
    if 2 < rest.length then .error (tooMany 7 (rest.length + 5))
    else
      -- the ratio is ignored
      return (x, y, {
        minRatio := r.constraints.minRatio
        maxDeadBoards := none
        maxDeadLinks := fourth
        requireTorus := (rest.head?.getD (r.requireTorus.getD .false)).holds })

/-- The type that `_alloc_type` selects by the number of arguments. -/
def type (r : Request) : AllocationType :=
  if r.x = .none then .board
  else if r.y = .none then
    if r.x = .int 1 then .board else .boards
  else if r.z = .none then .triads
  else .board

def allocType (r : Request) : Except Error AllocationType := do
  r.bindType.mapError (· "_alloc_type")
  if r.type = .board ∧ r.torus.holds then
    .error (.valueError "require_torus must be False when allocating boards.")
  else .ok r.type

end Request

/-- What `alloc` returns when it succeeds. -/
structure Allocation where
  id : ℕ
  boards : Finset Board
  periphery : Finset BoardLink
  torus : WrapAround

/-- A board on its own, with all of its links on the periphery. -/
def Allocation.ofBoard (id : ℕ) (b : Board) : Allocation :=
  ⟨id, {b}, Finset.univ.image fun link => (b, link), .none⟩

/-- An entry of `to_free`. -/
structure ToFree where
  time : ℤ
  type : AllocationType
  board : Board
  deriving DecidableEq, Repr

/-- Which element `set.pop` takes, the n-th time. -/
structure SetPop where
  pick : ℕ → Finset ℤ → ℤ
  mem : ∀ n s, s.Nonempty → pick n s ∈ s

/-- The smallest board first. -/
def SetPop.least : SetPop where
  pick _ s := if h : s.Nonempty then s.min' h else 0
  mem _ s h := by
    rw [dif_pos h]
    exact s.min'_mem h

structure Allocator where
  width : ℤ
  height : ℤ
  deadBoards : Finset Board
  deadLinks : Finset BoardLink
  secondsBeforeFree : ℤ
  nextId : ℕ
  packTree : PackTree
  allocationTypes : Dict ℕ AllocationType
  allocationBoard : Dict ℕ Board
  toFree : List ToFree
  singleBoardTriads : Dict (ℤ × ℤ) (Finset ℤ)
  fullSingleBoardTriads : Finset (ℤ × ℤ)
  /-- What `datetime.now()` will answer, in microseconds, each time it is called. -/
  clock : ℕ → ℤ
  reads : ℕ
  setPop : SetPop

namespace Allocator

def new (width height : ℤ) (deadBoards : Finset Board) (deadLinks : Finset BoardLink)
    (nextId : ℕ) (secondsBeforeFree : ℤ) (clock : ℕ → ℤ) (setPop : SetPop) : Allocator where
  width := width
  height := height
  deadBoards := deadBoards
  deadLinks := deadLinks
  secondsBeforeFree := secondsBeforeFree
  nextId := nextId
  packTree := PackTree.new 0 0 width height
  allocationTypes := Dict.empty
  allocationBoard := Dict.empty
  toFree := []
  singleBoardTriads := Dict.empty
  fullSingleBoardTriads := ∅
  clock := clock
  reads := 0
  setPop := setPop

def candidateFilter (a : Allocator) (c : Constraints) (expectedBoards : Option ℤ) :
    CandidateFilter where
  width := a.width
  height := a.height
  deadBoards := a.deadBoards
  deadLinks := a.deadLinks
  maxDeadBoards := c.maxDeadBoards
  maxDeadLinks := c.maxDeadLinks
  requireTorus := c.requireTorus
  expectedBoards := expectedBoards

def cornerAccepted (a : Allocator) (f : CandidateFilter) (width height : ℤ) : Bool :=
  [(0, 0), (a.width - width, 0), (0, a.height - height),
    (a.width - width, a.height - height)].any fun (x, y) => (f.call x y width height none).1

def allocTriadsPossible (a : Allocator) (width height : Value) (c : Constraints) :
    Except Error Bool := do
  let w ← width.against ">"
  if w > a.width then return false
  let h ← height.against ">"
  if h > a.height then return false
  if w ≤ 0 ∨ h ≤ 0 then return false
  if c.requireTorus ∧ (w ≠ a.width ∨ h ≠ a.height) then return false
  return a.cornerAccepted (a.candidateFilter c none) w h

/-- `2 ^ 1024 - 2 ^ 970`, the least number that rounds to no `float`. -/
def floatLimit : ℕ := 16 ^ 256 - 1024 ^ 97

/-- `int(ceil(boards / 3.0))` -/
def triadsFor (boards : Value) : Except Error (ℤ × ℤ) := do
  let n ← boards.num fun t => s!"unsupported operand type(s) for /: '{t}' and 'float'"
  if floatLimit ≤ n.natAbs then throw (.overflowError "int too large to convert to float")
  return (n, AreaToRect.ceilDiv n 3)

def allocBoardsPossible (a : Allocator) (boards : Value) (c : Constraints) :
    Except Error Bool := do
  let (boards, triads) ← triadsFor boards
  if triads ≤ 0 then return false
  if c.requireTorus ∧ triads ≠ a.width * a.height then return false
  match ← AreaToRect.areaToRect triads a.width a.height c.minRatio with
  | none => return false
  | some (w, h) => return a.cornerAccepted (a.candidateFilter c (some boards)) w h

def boardArgs (x y z : Value) : Bool :=
  ((x == .none) == (y == .none) && (y == .none) == (z == .none)) ||
    ((x == .int 1) == (y == .none) && (y == .none) == (z == .none))

def toBoard : Value → Value → Value → Option Board
  | .int x, .int y, .int z => some (x, y, z)
  | _, _, _ => none

def isDead (a : Allocator) (x y z : Value) : Bool :=
  match toBoard x y z with
  | some b => decide (b ∈ a.deadBoards)
  | none => false

def allocBoardPossible (a : Allocator) (x y z : Value) (requireTorus : Flag) :
    Except Error Bool := do
  if requireTorus ≠ .false then throw .assertionError
  if ¬ boardArgs x y z then throw .assertionError
  if y ≠ .none then
    let x ← x.above
    if ¬(0 ≤ x ∧ x < a.width) then return false
    let y ← y.above
    if ¬(0 ≤ y ∧ y < a.height) then return false
    let z ← z.above
    if ¬(0 ≤ z ∧ z < 3) then return false
    if (x, y, z) ∈ a.deadBoards then return false
  return decide ((a.deadBoards.card : ℤ) < a.width * a.height * 3)

def allocPossible (a : Allocator) (r : Request) : Except Error Bool := do
  match ← r.allocType with
  | .board => a.allocBoardPossible r.x r.y r.z r.torus
  | .boards =>
    let (boards, c) ← r.bindBoards.mapError (· "_alloc_boards_possible")
    a.allocBoardsPossible boards c
  | .triads =>
    let (width, height, c) ← r.bindTriads.mapError (· "_alloc_triads_possible")
    a.allocTriadsPossible width height c

def working (a : Allocator) (xy : ℤ × ℤ) : Finset ℤ :=
  ({0, 1, 2} : Finset ℤ).filter fun z => (xy.1, xy.2, z) ∉ a.deadBoards

def registered (a : Allocator) (type : AllocationType) (b : Board) : Allocator :=
  { a with
    nextId := a.nextId + 1
    allocationTypes := a.allocationTypes.set a.nextId type
    allocationBoard := a.allocationBoard.set a.nextId b }

def opened (a : Allocator) (xy : ℤ × ℤ) (tree : PackTree) : Allocator :=
  { a with
    packTree := tree
    singleBoardTriads := a.singleBoardTriads.set xy (a.working xy) }

def available (a : Allocator) (xy : ℤ × ℤ) : Finset ℤ :=
  (a.singleBoardTriads.get? xy).getD ∅

def taken (a : Allocator) (xy : ℤ × ℤ) (z : ℤ) : Allocator :=
  let rest := (a.available xy).erase z
  { a with
    singleBoardTriads :=
      if rest = ∅ then a.singleBoardTriads.erase xy else a.singleBoardTriads.set xy rest
    fullSingleBoardTriads :=
      if rest = ∅ then insert xy a.fullSingleBoardTriads else a.fullSingleBoardTriads }

def reopened (a : Allocator) (xy : ℤ × ℤ) : Allocator :=
  { a with
    fullSingleBoardTriads := a.fullSingleBoardTriads.erase xy
    singleBoardTriads :=
      if xy ∈ a.fullSingleBoardTriads then a.singleBoardTriads.set xy ∅
      else a.singleBoardTriads }

def closed (a : Allocator) (xy : ℤ × ℤ) : Allocator :=
  { a with singleBoardTriads := a.singleBoardTriads.erase xy }

open Prog

/-- `datetime.now()` -/
def now : Prog Error Allocator ℤ := do
  let a ← state
  update fun a => { a with reads := a.reads + 1 }
  return a.clock a.reads

def register (type : AllocationType) (b : Board) : Prog Error Allocator ℕ := do
  let a ← state
  update fun a => a.registered type b
  return a.nextId

/-- The filter has accepted a candidate by then, so there is a last one. -/
def allocated (xy : ℤ × ℤ) (last : Option Candidate) : Prog Error Allocator (Option Allocation) :=
  match last with
  | some c => do
    let id ← register .triads (xy.1, xy.2, 0)
    return some ⟨id, c.boards, c.periphery, c.torus⟩
  | none => raise .attributeError

def allocTriads (width height : Value) (c : Constraints) :
    Prog Error Allocator (Option Allocation) := do
  let a ← state
  if c.requireTorus ∧ (width ≠ .int a.width ∨ height ≠ .int a.height) then return none
  else
    let w ← ofExcept (width.against "<=")
    if w ≤ 0 then return none
    else
      let h ← ofExcept (height.against "<=")
      if h ≤ 0 then return none
      else
        let (xy, tree, last) := a.packTree.alloc (some (a.candidateFilter c none).call) w h none
        update fun a => { a with packTree := tree }
        match xy with
        | none => return none
        | some xy => allocated xy last

def allocBoards (boards : Value) (c : Constraints) :
    Prog Error Allocator (Option Allocation) := do
  let a ← state
  let (boards, triads) ← ofExcept (triadsFor boards)
  if triads ≤ 0 then return none
  else if c.requireTorus ∧ triads ≠ a.width * a.height then return none
  else
    let (xywh, tree, last) :=
      a.packTree.allocArea (some (a.candidateFilter c (some boards)).call) triads c.minRatio none
    update fun a => { a with packTree := tree }
    match ← ofExcept xywh with
    | none => return none
    | some (x, y, _, _) => allocated (x, y) last

def hasAtLeastOneWorkingBoard (a : Allocator) : Filter Unit := fun x y _ _ s =>
  (decide (([0, 1, 2].filter fun z => (x, y, z) ∈ a.deadBoards).length < 3), s)

/-- `self.pack_tree.request(x, y)`: `contains` compares `y` only when `x` is in range. -/
def request (x y : Value) : Prog Error Allocator (Option (ℤ × ℤ)) := do
  let a ← state
  let r := a.packTree.region
  let x ← ofExcept x.above
  if ¬(r.x ≤ x ∧ x < r.x + r.width) then return none
  else
    let y ← ofExcept y.above
    let (xy, tree) := a.packTree.request x y
    update fun a => { a with packTree := tree }
    return xy

def allocTriad : Prog Error Allocator (Option (ℤ × ℤ)) := do
  let a ← state
  let (xy, tree, _) := a.packTree.alloc (some a.hasAtLeastOneWorkingBoard) 1 1 ()
  update fun a => { a with packTree := tree }
  return xy

def spare (a : Allocator) (x y z : Value) : Option (ℤ × ℤ × ℤ) :=
  if y = .none then
    match a.singleBoardTriads.keys with
    | [] => none
    | xy :: _ => some (xy.1, xy.2, a.setPop.pick a.nextId (a.available xy))
  else
    match toBoard x y z with
    | some b => if b.2.2 ∈ a.available (b.1, b.2.1) then some b else none
    | none => none

def take (b : Board) : Prog Error Allocator Allocation := do
  let a ← state
  -- `pop` from an empty set
  if a.available (b.1, b.2.1) = ∅ then raise .keyError
  else
    update fun a => a.taken (b.1, b.2.1) b.2.2
    let id ← register .board b
    return .ofBoard id b

/-- The call that follows the opening of a triad does not open another one, so two calls are
enough. -/
def allocBoard (x y z : Value) (requireTorus : Flag) :
    ℕ → Prog Error Allocator (Option Allocation)
  | 0 => return none
  | n + 1 => do
    let a ← state
    if requireTorus ≠ .false then raise .assertionError
    else if ¬ boardArgs x y z then raise .assertionError
    else if y ≠ .none ∧ a.isDead x y z then return none
    else
      match a.spare x y z with
      | some b => some <$> take b
      | none =>
        match ← (if y ≠ .none then request x y else allocTriad) with
        | none => return none
        | some xy =>
          update fun a => a.opened xy a.packTree
          allocBoard x y z requireTorus n

/-- `self.pack_tree.free(x, y)` -/
def freeTriads (x y : ℤ) : Prog Error Allocator Unit := do
  let a ← state
  let tree ← ofExcept (a.packTree.free x y)
  update fun a => { a with packTree := tree }

def returnBoard (xy : ℤ × ℤ) (z : ℤ) : Prog Error Allocator (Finset ℤ) := do
  update fun a => a.reopened xy
  let a ← state
  match a.singleBoardTriads.get? xy with
  | none => raise .keyError
  | some free =>
    update fun a =>
      { a with singleBoardTriads := a.singleBoardTriads.set xy (insert z free) }
    return insert z free

/-- `_free_next` -/
def freeNext : Prog Error Allocator Unit := do
  let a ← state
  match a.toFree with
  | [] => raise .indexError
  | entry :: rest =>
    update fun a => { a with toFree := rest }
    let (x, y, z) := entry.board
    match entry.type with
    | .triads => freeTriads x y
    | .board =>
      let free ← returnBoard (x, y) z
      -- if all working boards have been freed, the triad is freed
      if free = a.working (x, y) then
        update fun a => a.closed (x, y)
        freeTriads x y
      else return ()
    | .boards => raise .assertionError

def checkFreeLoop (changed : Bool) : ℕ → Prog Error Allocator Bool
  | 0 => return changed
  | n + 1 => do
    let a ← state
    match a.toFree with
    | [] => return changed
    | entry :: _ =>
      let now ← now
      if now - entry.time < a.secondsBeforeFree * 1000000 then return changed
      else
        freeNext
        checkFreeLoop true n

def checkFree : Prog Error Allocator Bool := do
  let a ← state
  checkFreeLoop false a.toFree.length

def alloc (r : Request) : Prog Error Allocator (Option Allocation) := do
  let _ ← checkFree
  match ← ofExcept r.allocType with
  | .board => allocBoard r.x r.y r.z r.torus 2
  | .boards =>
    let (boards, c) ← ofExcept (r.bindBoards.mapError (· "_alloc_boards"))
    allocBoards boards c
  | .triads =>
    let (width, height, c) ← ofExcept (r.bindTriads.mapError (· "_alloc_triads"))
    allocTriads width height c

def free (id : ℕ) : Prog Error Allocator Unit := do
  let a ← state
  match a.allocationTypes.get? id with
  | none => raise .keyError
  | some type =>
    update fun a => { a with allocationTypes := a.allocationTypes.erase id }
    match a.allocationBoard.get? id with
    | none => raise .keyError
    | some b =>
      update fun a => { a with allocationBoard := a.allocationBoard.erase id }
      let time ← now
      update fun a => { a with toFree := a.toFree ++ [⟨time, type, b⟩] }

end Allocator

end SpallocServer
