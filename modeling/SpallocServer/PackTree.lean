import SpallocServer.AreaToRect

namespace SpallocServer

/-- The rectangle a node of the tree stands for. -/
structure Region where
  x : ℤ
  y : ℤ
  width : ℤ
  height : ℤ
  deriving DecidableEq, Repr

namespace Region

def contains (r : Region) (x y : ℤ) : Bool :=
  decide (r.x ≤ x ∧ x < r.x + r.width ∧ r.y ≤ y ∧ y < r.y + r.height)

def area (r : Region) : ℤ := r.width * r.height

/-- The two halves below and above `y`. -/
def hsplit (r : Region) (y : ℤ) : Region × Region :=
  (⟨r.x, r.y, r.width, y - r.y⟩, ⟨r.x, y, r.width, r.height - (y - r.y)⟩)

/-- The two halves left and right of `x`. -/
def vsplit (r : Region) (x : ℤ) : Region × Region :=
  (⟨r.x, r.y, x - r.x, r.height⟩, ⟨x, r.y, r.width - (x - r.x), r.height⟩)

end Region

inductive PackTree where
  | leaf (region : Region) (allocated : Bool)
  | node (region : Region) (allocated : Bool) (first second : PackTree)
  deriving DecidableEq, Repr

/-- A filter may keep state of its own between the candidates it is shown. -/
abbrev Filter (σ : Type) := ℤ → ℤ → ℤ → ℤ → σ → Bool × σ

namespace PackTree

variable {σ : Type}

def new (x y width height : ℤ) : PackTree := .leaf ⟨x, y, width, height⟩ false

def region : PackTree → Region
  | .leaf r _ => r
  | .node r _ _ _ => r

def isFree : PackTree → Bool
  | .leaf _ allocated => !allocated
  | .node .. => false

def accepts (f : Option (Filter σ)) (x y width height : ℤ) (s : σ) : Bool × σ :=
  match f with
  | none => (true, s)
  | some f => f x y width height s

def tryCorners (f : Option (Filter σ)) (width height : ℤ) :
    List (ℤ × ℤ) → List (ℤ × ℤ) → σ → Option (ℤ × ℤ) × σ
  | [], _, s => (none, s)
  | key :: rest, tried, s =>
    if key ∈ tried then tryCorners f width height rest (key :: tried) s
    else
      match accepts f key.1 key.2 width height s with
      | (true, s) => (some key, s)
      | (false, s) => tryCorners f width height rest (key :: tried) s

/-- The four placements of a rectangle in the corners of a region. -/
def corners (r : Region) (width height : ℤ) : List (ℤ × ℤ) :=
  [0, r.width - width].flatMap fun x =>
    [0, r.height - height].map fun y => (r.x + x, r.y + y)

def findAcceptable (r : Region) (width height : ℤ) (f : Option (Filter σ)) (s : σ) :
    Option (ℤ × ℤ) × σ :=
  tryCorners f width height (corners r width height) [] s

def carveChild (c : Region) (x y width height : ℤ) : (ℤ × ℤ) × PackTree :=
  if c.width ≠ width then
    let (a, b) := c.vsplit (if x ≠ c.x then x else c.x + width)
    if x = c.x then ((a.x, a.y), .node c false (.leaf a true) (.leaf b false))
    else ((b.x, b.y), .node c false (.leaf a false) (.leaf b true))
  else if c.height ≠ height then
    let (a, b) := c.hsplit (if y ≠ c.y then y else c.y + height)
    if y = c.y then ((a.x, a.y), .node c false (.leaf a true) (.leaf b false))
    else ((b.x, b.y), .node c false (.leaf a false) (.leaf b true))
  else ((c.x, c.y), .leaf c true)

def carve (r : Region) (x y width height : ℤ) : (ℤ × ℤ) × PackTree :=
  if width = r.width ∧ height = r.height then ((r.x, r.y), .leaf r true)
  else
    let dw := r.width - width
    let dh := r.height - height
    if dh > dw then
      let (a, b) := r.hsplit (if y ≠ r.y then y else y + height)
      if y = r.y then
        let (xy, c) := carveChild a x y width height
        (xy, .node r false c (.leaf b false))
      else
        let (xy, c) := carveChild b x y width height
        (xy, .node r false (.leaf a false) c)
    else
      let (a, b) := r.vsplit (if x ≠ r.x then x else x + width)
      if x = r.x then
        let (xy, c) := carveChild a x y width height
        (xy, .node r false c (.leaf b false))
      else
        let (xy, c) := carveChild b x y width height
        (xy, .node r false (.leaf a false) c)

def alloc (f : Option (Filter σ)) (width height : ℤ) :
    PackTree → σ → Option (ℤ × ℤ) × PackTree × σ
  | .leaf r allocated, s =>
    if allocated then (none, .leaf r allocated, s)
    else if width > r.width ∨ height > r.height then (none, .leaf r allocated, s)
    else
      match findAcceptable r width height f s with
      | (none, s) => (none, .leaf r allocated, s)
      | (some (x, y), s) =>
        let (xy, t) := carve r x y width height
        (some xy, t, s)
  | .node r allocated a b, s =>
    if allocated then (none, .node r allocated a b, s)
    else if width > r.width ∨ height > r.height then (none, .node r allocated a b, s)
    -- the smallest child first; the sort is stable
    else if a.region.area ≤ b.region.area then
      match alloc f width height a s with
      | (some xy, a, s) => (some xy, .node r allocated a b, s)
      | (none, a, s) =>
        let (xy, b, s) := alloc f width height b s
        (xy, .node r allocated a b, s)
    else
      match alloc f width height b s with
      | (some xy, b, s) => (some xy, .node r allocated a b, s)
      | (none, b, s) =>
        let (xy, a, s) := alloc f width height a s
        (xy, .node r allocated a b, s)

/-- The sizes come from `areaToRect`, whose exceptions leave the tree as it was. -/
def allocArea (f : Option (Filter σ)) (area : ℤ) (minRatio : Option ℚ) :
    PackTree → σ → Except Error (Option (ℤ × ℤ × ℤ × ℤ)) × PackTree × σ
  | .leaf r allocated, s =>
    if allocated then (.ok none, .leaf r allocated, s)
    else if area > r.width * r.height then (.ok none, .leaf r allocated, s)
    else
      match AreaToRect.areaToRect area r.width r.height minRatio with
      | .error e => (.error e, .leaf r allocated, s)
      | .ok none => (.ok none, .leaf r allocated, s)
      | .ok (some (width, height)) =>
        match alloc f width height (.leaf r allocated) s with
        | (none, t, s) => (.ok none, t, s)
        | (some (x, y), t, s) => (.ok (some (x, y, width, height)), t, s)
  | .node r allocated a b, s =>
    if allocated then (.ok none, .node r allocated a b, s)
    else if area > r.width * r.height then (.ok none, .node r allocated a b, s)
    else if a.region.area ≤ b.region.area then
      match allocArea f area minRatio a s with
      | (.ok none, a, s) =>
        let (xywh, b, s) := allocArea f area minRatio b s
        (xywh, .node r allocated a b, s)
      | (xywh, a, s) => (xywh, .node r allocated a b, s)
    else
      match allocArea f area minRatio b s with
      | (.ok none, b, s) =>
        let (xywh, a, s) := allocArea f area minRatio a s
        (xywh, .node r allocated a b, s)
      | (xywh, b, s) => (xywh, .node r allocated a b, s)

/-- The cut of an empty leaf on its side with the most space around `(x, y)`. -/
def cutAround (r : Region) (x y : ℤ) : Region × Region :=
  let l := x - r.x
  let right := r.x + r.width - x - 1
  let above := r.y + r.height - y - 1
  let below := y - r.y
  let largest := max (max l right) (max above below)
  if l = largest then r.vsplit x
  else if right = largest then r.vsplit (x + 1)
  else if above = largest then r.hsplit (y + 1)
  else r.hsplit y

/-- `request` on a leaf. Every cut takes a row or a column away, so `width + height` cuts
are enough. -/
def requestLeaf (x y : ℤ) : ℕ → Region → Bool → Option (ℤ × ℤ) × PackTree
  | 0, r, allocated => (none, .leaf r allocated)
  | n + 1, r, allocated =>
    if ¬ r.contains x y then (none, .leaf r allocated)
    else if allocated then (none, .leaf r allocated)
    else if r.width = 1 ∧ r.height = 1 then (some (r.x, r.y), .leaf r true)
    else
      let (a, b) := cutAround r x y
      match requestLeaf x y n a false with
      | (some xy, t) => (some xy, .node r allocated t (.leaf b false))
      | (none, t) =>
        let (xy, u) := requestLeaf x y n b false
        (xy, .node r allocated t u)

def request (x y : ℤ) : PackTree → Option (ℤ × ℤ) × PackTree
  | .leaf r allocated => requestLeaf x y (r.width + r.height).toNat r allocated
  | .node r allocated a b =>
    if ¬ r.contains x y then (none, .node r allocated a b)
    else
      match request x y a with
      | (some xy, a) => (some xy, .node r allocated a b)
      | (none, a) =>
        let (xy, b) := request x y b
        (xy, .node r allocated a b)

def collapse (r : Region) (allocated : Bool) (a b : PackTree) : PackTree :=
  if a.isFree ∧ b.isFree then .leaf r allocated else .node r allocated a b

def free (x y : ℤ) : PackTree → Except Error PackTree
  | .leaf r allocated =>
    if x = r.x ∧ y = r.y then
      if allocated then .ok (.leaf r false)
      else .error (.freeError s!"Cannot free non-allocated region {x}, {y}.")
    else .error (.freeError s!"Cannot free {x}, {y} which is outside the region.")
  | .node r allocated a b =>
    if a.region.contains x y then
      match free x y a with
      | .ok a => .ok (collapse r allocated a b)
      | .error e => .error e
    else if b.region.contains x y then
      match free x y b with
      | .ok b => .ok (collapse r allocated a b)
      | .error e => .error e
    else .error (.freeError s!"Cannot free {x}, {y} which is outside the region.")

def leaves : PackTree → List (Region × Bool)
  | .leaf r allocated => [(r, allocated)]
  | .node _ _ a b => a.leaves ++ b.leaves

/-- The regions of the allocated leaves. -/
def allocated (t : PackTree) : List Region := (t.leaves.filter (·.2)).map (·.1)

end PackTree

end SpallocServer
