import Mathlib.Data.Prod.Lex
import SpallocServer.Foundation.Dict
import SpallocServer.Foundation.SetOrder
import SpallocServer.CandidateFilter
import SpallocServer.Errors

namespace SpallocServer

open Foundation Coordinates

def Board.key : Board ≃ ℤ ×ₗ ℤ ×ₗ ℤ where
  toFun b := toLex (b.1, toLex b.2)
  invFun k := ((ofLex k).1, ofLex (ofLex k).2)
  left_inv _ := rfl
  right_inv _ := rfl

def BoardLink.key : BoardLink ≃ (ℤ ×ₗ ℤ ×ₗ ℤ) ×ₗ Fin 6 :=
  (Board.key.prodCongr Links.number).trans toLex

namespace Configuration

abbrev Location := ℤ × ℤ × ℤ

/-- A SpiNNaker machine, with what `Machine.__new__` checks. -/
structure Machine where
  name : String
  tags : Finset String
  width : ℤ
  height : ℤ
  deadBoards : Finset Board
  deadLinks : Finset BoardLink
  boardLocations : Dict Board Location
  bmpIps : Dict (ℤ × ℤ) String
  spinnakerIps : Dict Board String
  deadBoards_in : ∀ b ∈ deadBoards, InMachine width height b
  deadLinks_in : ∀ l ∈ deadLinks, InMachine width height l.1
  locations_in : ∀ b ∈ boardLocations.keys, InMachine width height b
  locations_apart : boardLocations.values.Nodup
  located : ∀ b, InMachine width height b → b ∉ deadBoards → b ∈ boardLocations.keys
  framed : ∀ l ∈ boardLocations.values, (l.1, l.2.1) ∈ bmpIps.keys
  addressed : ∀ b, InMachine width height b → b ∉ deadBoards → b ∈ spinnakerIps.keys

instance (width height : ℤ) (b : Board) : Decidable (InMachine width height b) :=
  decidable_of_iff ((0 ≤ b.1 ∧ b.1 < width) ∧ (0 ≤ b.2.1 ∧ b.2.1 < height) ∧
    (0 ≤ b.2.2 ∧ b.2.2 < 3)) ⟨fun h => ⟨h.1, h.2.1, h.2.2⟩, fun h => ⟨h.x, h.y, h.z⟩⟩

namespace Machine

theorem eq_origin {b : Board} (h : InMachine 1 1 b)
    (hd : b ∉ ({(0, 0, 1), (0, 0, 2)} : Finset Board)) : b = (0, 0, 0) := by
  obtain ⟨x, y, z⟩ := b
  have hx := h.x
  have hy := h.y
  have hz := h.z
  simp only [Finset.mem_insert, Finset.mem_singleton, Prod.mk.injEq, not_or] at hd
  simp only [Prod.mk.injEq]
  dsimp only at hx hy hz
  omega

section New

def showTriple (b : ℤ × ℤ × ℤ) : String := s!"({b.1}, {b.2.1}, {b.2.2})"

def showPair (p : ℤ × ℤ) : String := s!"({p.1}, {p.2})"

def showSet (elements : List String) : String :=
  "\x7b" ++ ", ".intercalate elements ++ "\x7d"

def dimensions (width height : Option ℤ) (boards : List Board) : Except Error (ℤ × ℤ) :=
  match width, height with
  | some width, some height => .ok (width, height)
  | none, none =>
    match boards with
    | [] => .error (.valueError "not enough values to unpack (expected 3, got 0)")
    | b :: rest =>
      .ok (rest.foldl (fun m b => max m b.1) b.1 + 1, rest.foldl (fun m b => max m b.2.1) b.2.1 + 1)
  | _, _ => .error (.typeError "Both or neither of width and height must be specified.")

variable (width height : ℤ)

def outside (boards : List Board) : Option Board :=
  boards.find? fun b => ¬InMachine width height b

def checkLocations : List Location → List (Board × Location) → Except Error Unit
  | _, [] => .ok ()
  | locations, (board, l) :: rest =>
    if ¬InMachine width height board then
      .error (.valueError
        s!"Board location given for board not in system {showTriple board}.")
    else if l ∈ locations then
      .error (.valueError s!"Multiple boards given location c:{l.1}, f:{l.2.1}, b:{l.2.2}.")
    else checkLocations (l :: locations) rest

def boardsOf : List Board :=
  (List.range width.toNat).flatMap fun (x : ℕ) =>
    (List.range height.toNat).flatMap fun (y : ℕ) =>
      (List.range 3).map fun (z : ℕ) => ((x : ℤ), (y : ℤ), (z : ℤ))

def liveBoards (deadBoards : Finset Board) : Finset Board :=
  ((boardsOf width height).filter fun b => b ∉ deadBoards).toFinset

variable {width height}

theorem mem_boardsOf {b : Board} : b ∈ boardsOf width height ↔ InMachine width height b := by
  obtain ⟨x, y, z⟩ := b
  simp only [boardsOf, List.mem_flatMap, List.mem_map, List.mem_range, Prod.mk.injEq]
  constructor
  · intro ⟨i, hi, j, hj, k, hk, hx, hy, hz⟩
    refine ⟨?_, ?_, ?_⟩ <;> dsimp only <;> omega
  · intro ⟨hx, hy, hz⟩
    dsimp only at hx hy hz
    exact ⟨x.toNat, by omega, y.toNat, by omega, z.toNat, by omega, by omega, by omega, by omega⟩

theorem mem_liveBoards {deadBoards : Finset Board} {b : Board} :
    b ∈ liveBoards width height deadBoards ↔ InMachine width height b ∧ b ∉ deadBoards := by
  rw [liveBoards, List.mem_toFinset, List.mem_filter, mem_boardsOf, decide_eq_true_eq]

theorem outside_none {boards : List Board} (h : outside width height boards = none) :
    ∀ b ∈ boards, InMachine width height b := by
  intro b hb
  simpa using List.find?_eq_none.mp h b hb

theorem checkLocations_ok {locations : List Location} {l : List (Board × Location)}
    (h : checkLocations width height locations l = .ok ()) :
    (∀ p ∈ l, InMachine width height p.1) ∧ (l.map Prod.snd).Nodup ∧
      ∀ p ∈ l, p.2 ∉ locations := by
  induction l generalizing locations with
  | nil => exact ⟨nofun, List.nodup_nil, nofun⟩
  | cons p l ih =>
    obtain ⟨board, loc⟩ := p
    unfold checkLocations at h
    split at h
    · cases h
    next hin =>
    split at h
    · cases h
    next hnew =>
    obtain ⟨hall, hnodup, hseen⟩ := ih h
    refine ⟨fun p hp => ?_, List.nodup_cons.mpr ⟨fun hmem => ?_, hnodup⟩, fun p hp => ?_⟩
    · obtain rfl | hp := List.mem_cons.mp hp
      · exact not_not.mp hin
      · exact hall p hp
    · obtain ⟨p, hp, he⟩ := List.mem_map.mp hmem
      exact hseen p hp (he ▸ List.mem_cons_self)
    · obtain rfl | hp := List.mem_cons.mp hp
      · exact hnew
      · exact fun hin => hseen p hp (List.mem_cons_of_mem loc hin)

variable (name : String) (tags : Finset String) (givenWidth givenHeight : Option ℤ)
  (deadBoards : Finset Board) (deadLinks : Finset BoardLink)
  (boardLocations : Dict Board Location) (bmpIps : Dict (ℤ × ℤ) String)
  (spinnakerIps : Dict Board String) (boardOrder : SetOrder Board)
  (linkOrder : SetOrder BoardLink) (frameOrder : SetOrder (ℤ × ℤ))

/-- The machine, or what is wrong with its description. -/
def new : Except Error Machine :=
  match dimensions givenWidth givenHeight (boardLocations.keys ++ boardOrder.list deadBoards) with
  | .error e => .error e
  | .ok (width, height) =>
    match hb : outside width height (boardOrder.list deadBoards) with
    | some b => .error (.valueError s!"Dead board {showTriple b} outside system.")
    | none =>
      match hl : outside width height ((linkOrder.list deadLinks).map Prod.fst) with
      | some b => .error (.valueError s!"Dead link {showTriple b} outside system.")
      | none =>
        match hc : checkLocations width height [] boardLocations.entries with
        | .error e => .error e
        | .ok () =>
          let live := liveBoards width height deadBoards
          if hboards : live ⊆ boardLocations.keys.toFinset then
            let frames := (boardLocations.values.map fun l => (l.1, l.2.1)).toFinset
            if hframes : frames ⊆ bmpIps.keys.toFinset then
              if hips : live ⊆ spinnakerIps.keys.toFinset then
                .ok {
                  name := name
                  tags := tags
                  width := width
                  height := height
                  deadBoards := deadBoards
                  deadLinks := deadLinks
                  boardLocations := boardLocations
                  bmpIps := bmpIps
                  spinnakerIps := spinnakerIps
                  deadBoards_in := fun b h => outside_none hb b ((boardOrder.mem _ _).mpr h)
                  deadLinks_in := fun l h =>
                    outside_none hl l.1 (List.mem_map_of_mem ((linkOrder.mem _ _).mpr h))
                  locations_in := fun b h => by
                    obtain ⟨p, hp, rfl⟩ := List.mem_map.mp h
                    exact (checkLocations_ok hc).1 p hp
                  locations_apart := (checkLocations_ok hc).2.1
                  located := fun b h hd =>
                    List.mem_toFinset.mp (hboards (mem_liveBoards.mpr ⟨h, hd⟩))
                  framed := fun l h => List.mem_toFinset.mp
                    (hframes (List.mem_toFinset.mpr (List.mem_map_of_mem h)))
                  addressed := fun b h hd =>
                    List.mem_toFinset.mp (hips (mem_liveBoards.mpr ⟨h, hd⟩)) }
              else .error (.valueError ("SpiNNaker IPs not given for boards " ++
                showSet ((boardOrder.list (live \ spinnakerIps.keys.toFinset)).map showTriple)))
            else .error (.valueError ("BMP IPs not given for frames " ++
              showSet ((frameOrder.list (frames \ bmpIps.keys.toFinset)).map showPair)))
          else .error (.valueError ("Board locations missing for " ++
            showSet ((boardOrder.list (live \ boardLocations.keys.toFinset)).map showTriple)))

end New

/-- A machine of a single board. -/
def ofBoard (name : String) (tags : Finset String) (bmpIp spinnakerIp : String) : Machine where
  name := name
  tags := tags
  width := 1
  height := 1
  deadBoards := {(0, 0, 1), (0, 0, 2)}
  deadLinks := ∅
  boardLocations := Dict.empty.set (0, 0, 0) (0, 0, 0)
  bmpIps := Dict.empty.set (0, 0) bmpIp
  spinnakerIps := Dict.empty.set (0, 0, 0) spinnakerIp
  deadBoards_in b hb := by
    simp only [Finset.mem_insert, Finset.mem_singleton] at hb
    obtain rfl | rfl := hb <;> exact ⟨by decide, by decide, by decide⟩
  deadLinks_in l hl := absurd hl (Finset.notMem_empty l)
  locations_in b hb := by
    obtain rfl := List.mem_singleton.mp hb
    exact ⟨by decide, by decide, by decide⟩
  locations_apart := List.nodup_singleton _
  located b hb hd := List.mem_singleton.mpr (eq_origin hb hd)
  framed l hl := by
    obtain rfl := List.mem_singleton.mp hl
    exact List.mem_singleton_self _
  addressed b hb hd := List.mem_singleton.mpr (eq_origin hb hd)

/-- `single_board` -/
def singleBoard (name : String) (tags : Finset String) (bmpIp spinnakerIp : Option String) :
    Except Error Machine :=
  match bmpIp, spinnakerIp with
  | none, _ => .error (.typeError "bmp_ip must be given.")
  | _, none => .error (.typeError "spinnaker_ip must be given.")
  | some bmpIp, some spinnakerIp => .ok (ofBoard name tags bmpIp spinnakerIp)

/-- What may not change without the machine being removed and added again. -/
structure Alike (m n : Machine) : Prop where
  name : m.name = n.name
  width : m.width = n.width
  height : m.height = n.height
  boardLocations : m.boardLocations.Same n.boardLocations
  bmpIps : m.bmpIps.Same n.bmpIps
  spinnakerIps : m.spinnakerIps.Same n.spinnakerIps

/-- `==`. Dictionaries are compared whatever the order of their keys. -/
structure Same (m n : Machine) : Prop extends Alike m n where
  tags : m.tags = n.tags
  deadBoards : m.deadBoards = n.deadBoards
  deadLinks : m.deadLinks = n.deadLinks

instance (m n : Machine) : Decidable (Alike m n) :=
  decidable_of_iff (m.name = n.name ∧ m.width = n.width ∧ m.height = n.height ∧
      m.boardLocations.Same n.boardLocations ∧ m.bmpIps.Same n.bmpIps ∧
      m.spinnakerIps.Same n.spinnakerIps)
    ⟨fun ⟨h1, h2, h3, h4, h5, h6⟩ => ⟨h1, h2, h3, h4, h5, h6⟩,
      fun h => ⟨h.name, h.width, h.height, h.boardLocations, h.bmpIps, h.spinnakerIps⟩⟩

instance (m n : Machine) : Decidable (Same m n) :=
  decidable_of_iff (Alike m n ∧ m.tags = n.tags ∧ m.deadBoards = n.deadBoards ∧
      m.deadLinks = n.deadLinks)
    ⟨fun ⟨h1, h2, h3, h4⟩ => ⟨h1, h2, h3, h4⟩,
      fun h => ⟨h.toAlike, h.tags, h.deadBoards, h.deadLinks⟩⟩

variable {m n o : Machine}

theorem Alike.refl (m : Machine) : Alike m m :=
  ⟨rfl, rfl, rfl, .refl _, .refl _, .refl _⟩

theorem Alike.trans (h : Alike m n) (h' : Alike n o) : Alike m o :=
  ⟨h.name.trans h'.name, h.width.trans h'.width, h.height.trans h'.height,
    h.boardLocations.trans h'.boardLocations, h.bmpIps.trans h'.bmpIps,
    h.spinnakerIps.trans h'.spinnakerIps⟩

theorem Alike.symm (h : Alike m n) : Alike n m :=
  ⟨h.name.symm, h.width.symm, h.height.symm, h.boardLocations.symm, h.bmpIps.symm,
    h.spinnakerIps.symm⟩

theorem Same.refl (m : Machine) : Same m m := ⟨.refl m, rfl, rfl, rfl⟩

theorem location_injective {b b' : Board} {l : Location}
    (h : m.boardLocations.get? b = some l) (h' : m.boardLocations.get? b' = some l) : b = b' :=
  Dict.inj_of_nodup m.locations_apart h h'

theorem framed_get {b : Board} {l : Location} (h : m.boardLocations.get? b = some l) :
    ∃ hostname, m.bmpIps.get? (l.1, l.2.1) = some hostname :=
  Dict.mem_keys.mp (m.framed l (Dict.mem_values.mpr ⟨b, h⟩))

end Machine

end Configuration

end SpallocServer
