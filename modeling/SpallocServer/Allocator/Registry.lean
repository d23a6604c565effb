import SpallocServer.Allocator.Session

namespace SpallocServer

open Foundation Prog

namespace Allocator

variable {a b c : Allocator} {r : Request}

/-- Live ids have a type and a board, and were given out before. -/
structure Registry (a : Allocator) : Prop where
  keys : ∀ id, (a.allocationTypes.get? id).isSome = (a.allocationBoard.get? id).isSome
  ids : ∀ id, (a.allocationTypes.get? id).isSome → id < a.nextId

/-- A call after which the same ids are live. -/
structure Passes (a b : Allocator) : Prop where
  setup : SameSetup a b
  types : b.allocationTypes = a.allocationTypes
  board : b.allocationBoard = a.allocationBoard
  nextId : b.nextId = a.nextId

theorem Passes.refl (a : Allocator) : Passes a a := ⟨.refl a, rfl, rfl, rfl⟩

theorem Passes.trans (h : Passes a b) (h' : Passes b c) : Passes a c :=
  ⟨h.setup.trans h'.setup, h'.types.trans h.types, h'.board.trans h.board,
    h'.nextId.trans h.nextId⟩

theorem Passes.registry (h : Passes a b) (hr : a.Registry) : b.Registry := by
  refine ⟨fun id => ?_, fun id => ?_⟩
  · rw [h.types, h.board]
    exact hr.keys id
  · rw [h.types, h.nextId]
    exact hr.ids id

theorem Passes.of_tables {tree : PackTree} {toFree : List ToFree}
    {single : Dict (ℤ × ℤ) (Finset ℤ)} {full : Finset (ℤ × ℤ)} {reads : ℕ} :
    Passes a { a with
      packTree := tree
      toFree := toFree
      singleBoardTriads := single
      fullSingleBoardTriads := full
      reads := reads } :=
  ⟨⟨rfl, rfl, rfl, rfl, rfl, rfl⟩, rfl, rfl, rfl⟩

theorem freeTriads_passes (a : Allocator) (x y : ℤ) :
    wp (freeTriads x y) (fun _ => Passes a) (fun _ => Passes a) a := by
  simp only [freeTriads, wp_bind, wp_state]
  cases a.packTree.free x y with
  | error e => exact .refl a
  | ok tree => exact .of_tables

theorem returnBoard_passes (a : Allocator) (xy : ℤ × ℤ) (z : ℤ) :
    wp (returnBoard xy z) (fun _ => Passes a) (fun _ => Passes a) a := by
  simp only [returnBoard, wp_bind, wp_update, wp_state]
  cases (a.reopened xy).singleBoardTriads.get? xy with
  | none => exact .of_tables
  | some free => exact .of_tables

theorem freeNext_passes (a : Allocator) :
    wp freeNext (fun _ => Passes a) (fun _ => Passes a) a := by
  simp only [freeNext, wp_bind, wp_state]
  cases a.toFree with
  | nil => exact .refl a
  | cons e rest =>
    obtain ⟨time, type, x, y, z⟩ := e
    have hrest : Passes a { a with toFree := rest } := .of_tables
    dsimp only
    rw [wp_bind, wp_update]
    cases type with
    | boards => exact hrest
    | triads =>
      apply (freeTriads_passes _ x y).mono
      · exact fun _ _ hb => hrest.trans hb
      · exact fun _ _ hb => hrest.trans hb
    | board =>
      dsimp only
      rw [wp_bind]
      apply (returnBoard_passes _ (x, y) z).mono
      · intro free b hb
        have hb' := hrest.trans hb
        split
        · rw [wp_bind, wp_update]
          have hclosed : Passes a (b.closed (x, y)) := hb'.trans .of_tables
          apply (freeTriads_passes _ x y).mono
          · exact fun _ _ hc => hclosed.trans hc
          · exact fun _ _ hc => hclosed.trans hc
        · exact hb'
      · exact fun _ _ hb => hrest.trans hb

theorem checkFreeLoop_passes (changed : Bool) (n : ℕ) (a : Allocator) :
    wp (checkFreeLoop changed n) (fun _ => Passes a) (fun _ => Passes a) a := by
  induction n generalizing a changed with
  | zero => exact .refl a
  | succ n ih =>
    simp only [checkFreeLoop, wp_bind, wp_state]
    cases a.toFree with
    | nil => exact .refl a
    | cons e rest =>
      have htick : Passes a a.ticked := .of_tables
      simp only [now, wp_bind, wp_state, wp_update, wp_pure]
      split
      · exact htick
      · rw [wp_bind]
        apply (freeNext_passes a.ticked).mono
        · intro _ b hb
          have hb' := htick.trans hb
          apply (ih true b).mono
          · exact fun _ _ hc => hb'.trans hc
          · exact fun _ _ hc => hb'.trans hc
        · exact fun _ _ hb => htick.trans hb

theorem checkFree_passes (a : Allocator) :
    wp checkFree (fun _ => Passes a) (fun _ => Passes a) a :=
  checkFreeLoop_passes false a.toFree.length a

/-- What `alloc` does to the ids: a new one, or none. -/
structure Registers (a : Allocator) (res : Option Allocation) (b : Allocator) : Prop where
  setup : SameSetup a b
  none : res = none → Passes a b
  some : ∀ al, res = some al → al.id = a.nextId ∧ b.nextId = a.nextId + 1 ∧
    ∃ type board, b.allocationTypes = a.allocationTypes.set a.nextId type ∧
      b.allocationBoard = a.allocationBoard.set a.nextId board

theorem Passes.nothing (h : Passes a b) : Registers a none b := ⟨h.setup, fun _ => h, nofun⟩

theorem Passes.registers {res : Option Allocation} (h : Passes a b) (hr : Registers b res c) :
    Registers a res c := by
  refine ⟨h.setup.trans hr.setup, fun hn => h.trans (hr.none hn), fun al hal => ?_⟩
  obtain ⟨hid, hnext, type, board, hty, hbd⟩ := hr.some al hal
  rw [h.nextId] at hid hnext
  rw [h.types, h.nextId] at hty
  rw [h.board, h.nextId] at hbd
  exact ⟨hid, hnext, type, board, hty, hbd⟩

theorem registers_registered {type : AllocationType} {board : Board} {al : Allocation}
    (hid : al.id = a.nextId) : Registers a (some al) (a.registered type board) := by
  refine ⟨⟨rfl, rfl, rfl, rfl, rfl, rfl⟩, nofun, fun al' hal => ?_⟩
  obtain rfl := Option.some.inj hal
  exact ⟨hid, rfl, type, board, rfl, rfl⟩

theorem allocated_registers (a : Allocator) (xy : ℤ × ℤ) (last : Option Candidate) :
    wp (allocated xy last) (Registers a) (fun _ => Passes a) a := by
  cases last with
  | none => exact .refl a
  | some c => exact registers_registered rfl

theorem allocTriads_registers (a : Allocator) (width height : Value) (c : Constraints) :
    wp (allocTriads width height c) (Registers a) (fun _ => Passes a) a := by
  simp only [allocTriads, wp_bind, wp_state]
  split
  · exact (Passes.refl a).nothing
  rw [wp_bind]
  cases width.against "<=" with
  | error e => exact .refl a
  | ok w =>
    rw [wp_ofExcept_ok]
    split
    · exact (Passes.refl a).nothing
    rw [wp_bind]
    cases height.against "<=" with
    | error e => exact .refl a
    | ok h =>
      rw [wp_ofExcept_ok]
      split
      · exact (Passes.refl a).nothing
      generalize a.packTree.alloc (some (a.candidateFilter c none).call) w h none = res
      obtain ⟨xy, tree, last⟩ := res
      rw [wp_bind, wp_update]
      have hpass : Passes a { a with packTree := tree } := .of_tables
      cases xy with
      | none => exact hpass.nothing
      | some xy =>
        apply (allocated_registers _ xy last).mono
        · exact fun _ _ hr => hpass.registers hr
        · exact fun _ _ hb => hpass.trans hb

theorem allocBoards_registers (a : Allocator) (boards : Value) (c : Constraints) :
    wp (allocBoards boards c) (Registers a) (fun _ => Passes a) a := by
  simp only [allocBoards, wp_bind, wp_state]
  cases triadsFor boards with
  | error e => exact .refl a
  | ok res =>
    obtain ⟨n, triads⟩ := res
    rw [wp_ofExcept_ok]
    dsimp only
    split
    · exact (Passes.refl a).nothing
    split
    · exact (Passes.refl a).nothing
    generalize a.packTree.allocArea (some (a.candidateFilter c (some n)).call) triads
      c.minRatio none = res
    obtain ⟨xywh, tree, last⟩ := res
    rw [wp_bind, wp_update]
    have hpass : Passes a { a with packTree := tree } := .of_tables
    dsimp only
    rw [wp_bind]
    cases xywh with
    | error e => exact hpass
    | ok xywh =>
      cases xywh with
      | none => exact hpass.nothing
      | some q =>
        obtain ⟨x, y, w, h⟩ := q
        apply (allocated_registers _ (x, y) last).mono
        · exact fun _ _ hr => hpass.registers hr
        · exact fun _ _ hb => hpass.trans hb

theorem request_passes (a : Allocator) (x y : Value) :
    wp (request x y) (fun _ => Passes a) (fun _ => Passes a) a := by
  simp only [request, wp_bind, wp_state]
  cases x.above with
  | error e => exact .refl a
  | ok x =>
    rw [wp_ofExcept_ok]
    split
    · exact .refl a
    rw [wp_bind]
    cases y.above with
    | error e => exact .refl a
    | ok y => exact .of_tables

theorem take_registers (a : Allocator) (board : Board) :
    wp (take board) (fun al => Registers a (some al)) (fun _ => Passes a) a := by
  simp only [take, wp_bind, wp_state]
  split
  · exact .refl a
  · have hpass : Passes a (a.taken (board.1, board.2.1) board.2.2) := .of_tables
    exact hpass.registers (registers_registered rfl)

theorem allocBoard_registers (a : Allocator) (x y z : Value) (torus : Flag) (n : ℕ) :
    wp (allocBoard x y z torus n) (Registers a) (fun _ => Passes a) a := by
  induction n generalizing a with
  | zero => exact (Passes.refl a).nothing
  | succ n ih =>
    simp only [allocBoard, wp_bind, wp_state]
    split
    · exact .refl a
    split
    · exact .refl a
    split
    · exact (Passes.refl a).nothing
    cases a.spare x y z with
    | some board =>
      dsimp only
      rw [wp_map]
      exact take_registers a board
    | none =>
      dsimp only
      rw [wp_bind]
      have hopen : wp (if y ≠ .none then request x y else allocTriad) (fun _ => Passes a)
          (fun _ => Passes a) a := by
        split
        · exact request_passes a x y
        · exact .of_tables
      apply hopen.mono _ fun _ _ hb => hb
      intro xy b hb
      cases xy with
      | none => exact hb.nothing
      | some xy =>
        dsimp only
        rw [wp_bind, wp_update]
        have hopened : Passes a (b.opened xy b.packTree) := hb.trans .of_tables
        apply (ih _).mono
        · exact fun _ _ hr => hopened.registers hr
        · exact fun _ _ hc => hopened.trans hc

theorem allocate_registers (a : Allocator) (r : Request) :
    wp (allocate r) (Registers a) (fun _ => Passes a) a := by
  unfold allocate
  rw [wp_bind]
  cases r.allocType with
  | error e => exact .refl a
  | ok type =>
    rw [wp_ofExcept_ok]
    cases type with
    | board => exact allocBoard_registers a _ _ _ _ 2
    | boards =>
      dsimp only
      rw [wp_bind]
      cases r.bindBoards with
      | error e => exact .refl a
      | ok nc => exact allocBoards_registers a nc.1 nc.2
    | triads =>
      dsimp only
      rw [wp_bind]
      cases r.bindTriads with
      | error e => exact .refl a
      | ok whc => exact allocTriads_registers a whc.1 whc.2.1 whc.2.2

theorem alloc_registers (a : Allocator) (r : Request) :
    wp (alloc r) (Registers a) (fun _ => Passes a) a := by
  rw [alloc_eq, wp_bind]
  apply (checkFree_passes a).mono
  · intro _ b hb
    apply (allocate_registers b r).mono
    · exact fun _ _ hr => hb.registers hr
    · exact fun _ _ hc => hb.trans hc
  · exact fun _ _ hb => hb

theorem Registry.registers {res : Option Allocation} (h : a.Registry)
    (hr : Registers a res b) : b.Registry := by
  cases res with
  | none => exact (hr.none rfl).registry h
  | some al =>
    obtain ⟨-, hnext, type, board, hty, hbd⟩ := hr.some al rfl
    refine ⟨fun id => ?_, fun id hid => ?_⟩
    · rw [hty, hbd, Dict.get?_set, Dict.get?_set]
      split
      · rfl
      · exact h.keys id
    · rw [hty, Dict.get?_set] at hid
      rw [hnext]
      split at hid
      · omega
      · exact Nat.lt_succ_of_lt (h.ids id hid)

theorem free_registry (h : a.Registry) (id : ℕ) :
    wp (free id) (fun _ b => (a.allocationTypes.get? id).isSome ∧ b.Registry ∧ SameSetup a b ∧
        b.allocationTypes = a.allocationTypes.erase id)
      (fun e b => e = .keyError ∧ a.allocationTypes.get? id = none ∧ b = a) a := by
  have hk := h.keys id
  simp only [free, wp_bind, wp_state]
  cases ht : a.allocationTypes.get? id with
  | none => exact ⟨rfl, rfl, rfl⟩
  | some type =>
    cases hb : a.allocationBoard.get? id with
    | none => simp [ht, hb] at hk
    | some board =>
      refine ⟨rfl, ⟨fun i => ?_, fun i hi => ?_⟩, ⟨rfl, rfl, rfl, rfl, rfl, rfl⟩, rfl⟩
      · dsimp only
        rw [Dict.get?_erase, Dict.get?_erase]
        split
        · rfl
        · exact h.keys i
      · dsimp only at hi ⊢
        rw [Dict.get?_erase] at hi
        split at hi
        · cases hi
        · exact h.ids i hi

theorem free_setup (a : Allocator) (id : ℕ) :
    wp (free id) (fun _ b => SameSetup a b) (fun _ _ => True) a := by
  simp only [free, wp_bind, wp_state]
  cases a.allocationTypes.get? id with
  | none => trivial
  | some type =>
    simp only [wp_bind, wp_update]
    cases a.allocationBoard.get? id with
    | none => trivial
    | some board => exact ⟨rfl, rfl, rfl, rfl, rfl, rfl⟩

theorem registry_new (width height : ℤ) (deadBoards : Finset Board)
    (deadLinks : Finset BoardLink) (nextId : ℕ) (secondsBeforeFree : ℤ) (clock : ℕ → ℤ)
    (setPop : SetPop) :
    (new width height deadBoards deadLinks nextId secondsBeforeFree clock setPop).Registry := by
  refine ⟨fun _ => rfl, fun id hid => ?_⟩
  cases hid

end Allocator

end SpallocServer
