import SpallocServer.Allocator.Invariant

namespace SpallocServer

open Foundation Prog

namespace Allocator

open Ledger

variable {a : Allocator} {p q : ℤ × ℤ} {z : ℤ}

def freed (a : Allocator) (id : ℕ) (c : Claim) : Allocator :=
  { a with
    allocationTypes := a.allocationTypes.erase id
    allocationBoard := a.allocationBoard.erase id
    toFree := a.toFree ++ [⟨a.clock a.reads, c.1, c.2⟩]
    reads := a.reads + 1 }

theorem free_spec (h : a.Books) (id : ℕ) :
    wp (free id) (fun _ a' => ∃ c, a.claimOf id = some c ∧ a' = a.freed id c)
      (fun e a' => e = .keyError ∧ a' = a ∧ a.claimOf id = none) a := by
  have hk := h.keys id
  simp only [free, wp_bind, wp_state]
  cases ht : a.allocationTypes.get? id with
  | none => exact ⟨rfl, rfl, by simp [claimOf, ht]⟩
  | some t =>
    cases hb : a.allocationBoard.get? id with
    | none => simp [ht, hb] at hk
    | some b => exact ⟨(t, b), by simp [claimOf, ht, hb], rfl⟩

theorem claimOf_freed (a : Allocator) (id i : ℕ) (c : Claim) :
    (a.freed id c).claimOf i = if id = i then none else a.claimOf i := by
  unfold claimOf freed
  dsimp only
  rw [Dict.get?_erase, Dict.get?_erase]
  by_cases h : id = i <;> simp [h]

theorem mem_freed {id : ℕ} {c d : Claim} :
    d ∈ (a.freed id c).toFree.map ToFree.claim ↔ d ∈ a.toFree.map ToFree.claim ∨ d = c := by
  simp [freed, ToFree.claim]

theorem outstanding_freed {id : ℕ} {c : Claim} (hc : a.claimOf id = some c) (d : Claim) :
    (a.freed id c).Outstanding d ↔ a.Outstanding d := by
  unfold Outstanding
  simp only [claimOf_freed, mem_freed]
  constructor
  · rintro (⟨i, hi⟩ | hd | rfl)
    · split at hi
      · cases hi
      · exact .inl ⟨i, hi⟩
    · exact .inr hd
    · exact .inl ⟨id, hc⟩
  · rintro (⟨i, hi⟩ | hd)
    · by_cases hid : id = i
      · subst hid
        exact .inr (.inr (Option.some.inj (hi.symm.trans hc)))
      · exact .inl ⟨i, by rwa [if_neg hid]⟩
    · exact .inr (.inl hd)

theorem Books.freed (h : a.Books) {id : ℕ} {c : Claim} (hc : a.claimOf id = some c) :
    (a.freed id c).Books := by
  refine ⟨fun i => ?_, fun i hi => ?_, fun i j d hi hj => ?_, ?_, fun i d hi => ?_⟩
  · simp only [Allocator.freed, Dict.get?_erase]
    split
    · rfl
    · exact h.keys i
  · simp only [Allocator.freed, Dict.get?_erase] at hi
    split at hi
    · cases hi
    · exact h.ids i hi
  · rw [claimOf_freed] at hi hj
    split at hi
    · cases hi
    split at hj
    · cases hj
    exact h.live i j d hi hj
  · have hm : (a.freed id c).toFree.map ToFree.claim = a.toFree.map ToFree.claim ++ [c] := by
      simp [Allocator.freed, ToFree.claim]
    rw [hm, List.nodup_append]
    refine ⟨h.queue, List.nodup_singleton c, fun d hd e he hde => ?_⟩
    obtain rfl := List.mem_singleton.mp he
    exact h.apart id e hc (hde ▸ hd)
  · rw [claimOf_freed] at hi
    rw [mem_freed]
    split at hi
    · cases hi
    · next hne =>
      rintro (hd | rfl)
      · exact h.apart i d hi hd
      · exact hne (h.live id i d hc hi)

theorem ledger_freed {id : ℕ} {c : Claim} (hc : a.claimOf id = some c) :
    (a.freed id c).ledger = a.ledger := by
  refine Ledger.ext rfl rfl rfl ?_
  ext d
  exact outstanding_freed hc d

theorem Inv.freed (h : a.Inv) {id : ℕ} {c : Claim} (hc : a.claimOf id = some c) :
    (a.freed id c).Inv := by
  refine ⟨h.tree, h.root, ⟨h.shape.full, h.shape.spare⟩, h.books.freed hc, ?_⟩
  rw [ledger_freed hc]
  exact h.sound

def dequeued (a : Allocator) (rest : List ToFree) : Allocator := { a with toFree := rest }

/-- A board is spare again. -/
def returned (a : Allocator) (p : ℤ × ℤ) (z : ℤ) : Allocator :=
  { a.reopened p with
    singleBoardTriads := (a.reopened p).singleBoardTriads.set p (insert z (a.available p)) }

theorem outstanding_dequeued (h : a.Books) {e : ToFree} {rest : List ToFree} (hq : a.toFree = e :: rest) (c : Claim) :
    (a.dequeued rest).Outstanding c ↔ a.Outstanding c ∧ c ≠ e.claim := by
  have hn := h.queue
  rw [hq, List.map_cons, List.nodup_cons] at hn
  have hm : a.toFree.map ToFree.claim = e.claim :: rest.map ToFree.claim := by
    rw [hq, List.map_cons]
  unfold Outstanding
  change (∃ id, a.claimOf id = some c) ∨ c ∈ rest.map ToFree.claim ↔ _
  rw [hm, List.mem_cons]
  constructor
  · rintro (⟨id, hid⟩ | hc)
    · have hne := h.apart id c hid
      rw [hm, List.mem_cons, not_or] at hne
      exact ⟨.inl ⟨id, hid⟩, hne.1⟩
    · exact ⟨.inr (.inr hc), by rintro rfl; exact hn.1 hc⟩
  · rintro ⟨hid | hc | hc, hne⟩
    · exact .inl hid
    · exact absurd hc hne
    · exact .inr hc

theorem Books.dequeued (h : a.Books) {e : ToFree} {rest : List ToFree} (hq : a.toFree = e :: rest) :
    (a.dequeued rest).Books := by
  have hm : a.toFree.map ToFree.claim = e.claim :: rest.map ToFree.claim := by
    rw [hq, List.map_cons]
  refine ⟨h.keys, h.ids, h.live, ?_, fun id c hid hc => ?_⟩
  · have hn := h.queue
    rw [hm, List.nodup_cons] at hn
    exact hn.2
  · refine h.apart id c hid ?_
    rw [hm]
    exact List.mem_cons_of_mem _ hc

theorem ledger_dequeued (h : a.Books) {e : ToFree} {rest : List ToFree} (hq : a.toFree = e :: rest) :
    (a.dequeued rest).ledger = { a.ledger with claims := a.ledger.claims \ {e.claim} } := by
  refine Ledger.ext rfl rfl rfl ?_
  ext c
  exact outstanding_dequeued h hq c

theorem get?_returned (a : Allocator) (p q : ℤ × ℤ) (z : ℤ) :
    (a.returned p z).singleBoardTriads.get? q =
      if q = p then some (insert z (a.available p)) else a.singleBoardTriads.get? q := by
  unfold returned reopened
  dsimp only
  by_cases hqp : q = p
  · subst hqp
    simp
  · rw [Dict.get?_set_ne _ (Ne.symm hqp), if_neg hqp]
    split
    · exact Dict.get?_set_ne _ (Ne.symm hqp) _
    · rfl

theorem available_returned (a : Allocator) (p : ℤ × ℤ) (z : ℤ) :
    (a.returned p z).available = Function.update a.available p (insert z (a.available p)) := by
  funext q
  unfold available
  rw [get?_returned]
  by_cases hqp : q = p
  · subst hqp
    simp [available]
  · simp [hqp]

theorem mem_full_returned : q ∈ (a.returned p z).fullSingleBoardTriads ↔
    q ≠ p ∧ q ∈ a.fullSingleBoardTriads := Finset.mem_erase

theorem opened_returned (hp : p ∈ a.ledger.opened) :
    q ∈ (a.returned p z).ledger.opened ↔ q ∈ a.ledger.opened := by
  rw [mem_opened, get?_returned, mem_full_returned]
  by_cases hqp : q = p
  · subst hqp
    simp [hp]
  · rw [mem_opened]
    simp [hqp]

theorem Shape.returned (h : a.Shape) (p : ℤ × ℤ) (z : ℤ) : (a.returned p z).Shape := by
  refine ⟨fun q hq => ?_, fun q free hq => ?_⟩
  · obtain ⟨hne, hq⟩ := mem_full_returned.mp hq
    rw [get?_returned, if_neg hne]
    exact h.full q hq
  · rw [get?_returned] at hq
    split at hq
    · obtain rfl := Option.some.inj hq
      exact Finset.insert_nonempty _ _
    · exact h.spare q free hq

theorem outstanding_returned (a : Allocator) (p : ℤ × ℤ) (z : ℤ) (c : Claim) :
    (a.returned p z).Outstanding c ↔ a.Outstanding c := by
  simp only [Outstanding, claimOf, returned, reopened]

theorem Books.returned (h : a.Books) (p : ℤ × ℤ) (z : ℤ) : (a.returned p z).Books := by
  obtain ⟨hk, hi, hl, hq, ha⟩ := h
  unfold claimOf at hl ha
  exact ⟨hk, hi, hl, hq, ha⟩

theorem ledger_returned (hp : p ∈ a.ledger.opened) :
    (a.returned p z).ledger =
      { a.ledger with free := Function.update a.available p (insert z (a.available p)) } := by
  refine Ledger.ext rfl ?_ ?_ ?_
  · ext q
    exact opened_returned hp
  · exact available_returned a p z
  · ext c
    exact outstanding_returned a p z c

theorem get?_closed (a : Allocator) (p q : ℤ × ℤ) :
    (a.closed p).singleBoardTriads.get? q =
      if q = p then none else a.singleBoardTriads.get? q := by
  unfold closed
  dsimp only
  rw [Dict.get?_erase]
  simp only [eq_comm]

theorem ledger_closed (hp : p ∉ a.fullSingleBoardTriads) :
    (a.closed p).ledger = { a.ledger with
      opened := a.ledger.opened \ {p}
      free := Function.update a.available p ∅ } := by
  refine Ledger.ext rfl ?_ ?_ rfl
  · ext q
    change q ∈ a.fullSingleBoardTriads ∨ (∃ free, _ = some free) ↔
      (q ∈ a.fullSingleBoardTriads ∨ _) ∧ q ≠ p
    rw [get?_closed]
    by_cases hqp : q = p
    · subst hqp
      simp [hp]
    · simp [hqp]
  · funext q
    change (a.closed p).available q = _
    unfold available
    rw [get?_closed]
    by_cases hqp : q = p
    · subst hqp
      simp
    · simp [hqp]

theorem Shape.closed (h : a.Shape) : (a.closed p).Shape := by
  refine ⟨fun q hq => ?_, fun q free hq => ?_⟩
  · rw [get?_closed, h.full q hq, ite_self]
  · rw [get?_closed] at hq
    split at hq
    · cases hq
    · exact h.spare q free hq

/-- What `_free_next` does when it does not raise. -/
inductive Released (a : Allocator) : Allocator → Prop where
  | block {time : ℤ} {r : Region} {rest : List ToFree} {tree : PackTree} (hq : a.toFree = ⟨time, .triads, (r.x, r.y, 0)⟩ :: rest)
      (hr : r ∈ a.packTree.allocated) (hrem : a.packTree.Removes r tree) :
    Released a { a.dequeued rest with packTree := tree }
  | board {time x y z : ℤ} {rest : List ToFree} (hq : a.toFree = ⟨time, .board, (x, y, z)⟩ :: rest)
      (hne : insert z (a.available (x, y)) ≠ a.working (x, y)) :
    Released a ((a.dequeued rest).returned (x, y) z)
  | last {time x y z : ℤ} {rest : List ToFree} {tree : PackTree} (hq : a.toFree = ⟨time, .board, (x, y, z)⟩ :: rest)
      (he : insert z (a.available (x, y)) = a.working (x, y))
      (hno : ∀ z', z' ≠ z → ¬a.Outstanding (single (x, y) z'))
      (hrem : a.packTree.Removes (cell (x, y)) tree) :
    Released a { ((a.dequeued rest).returned (x, y) z).closed (x, y) with packTree := tree }

/-- The entry at the head of the queue makes the spare boards of its triad equal to the boards
that work now, while another board of the triad is still claimed. -/
def Premature (a : Allocator) : Prop :=
  ∃ time x y z rest, a.toFree = ⟨time, .board, (x, y, z)⟩ :: rest ∧
    insert z (a.available (x, y)) = a.working (x, y) ∧
    ∃ z', z' ≠ z ∧ a.Outstanding (single (x, y) z')

theorem freeTriads_spec {r : Region} (ht : a.packTree.Valid) (hr : r ∈ a.packTree.allocated) :
    wp (freeTriads r.x r.y) (fun _ a' => ∃ tree, a.packTree.Removes r tree ∧
      a' = { a with packTree := tree }) (fun _ _ => False) a := by
  simp only [freeTriads, wp_bind, wp_state]
  have hF := PackTree.free_spec r.x r.y ht
  cases hfree : a.packTree.free r.x r.y with
  | error e => exact (hF.error e hfree).2 r hr ⟨rfl, rfl⟩
  | ok tree =>
    obtain ⟨q, hq, hx, hy, hrem⟩ := hF.ok tree hfree
    obtain rfl := ht.eq_of_corner hq hr hx hy
    exact ⟨tree, hrem, rfl⟩

theorem returnBoard_spec (hp : p ∈ a.ledger.opened) (hs : a.Shape) :
    wp (returnBoard p z) (fun free a' => free = insert z (a.available p) ∧ a' = a.returned p z)
      (fun _ _ => False) a := by
  have hget : (a.reopened p).singleBoardTriads.get? p = some (a.available p) := by
    unfold reopened
    dsimp only
    split
    · next hf => rw [available_full hs hf, Dict.get?_set_self]
    · next hf =>
      obtain ⟨free, hfree⟩ := hp.resolve_left hf
      rw [available, hfree]
      rfl
  simp only [returnBoard, wp_bind, wp_update, wp_state, hget, wp_pure]
  exact ⟨trivial, rfl⟩

theorem freeNext_spec (h : a.Inv) {e : ToFree} {rest : List ToFree}
    (hq : a.toFree = e :: rest) (hp : ¬a.Premature) : wp freeNext (fun _ => Released a) (fun _ _ => False) a := by
  have hout : a.Outstanding e.claim := .inr (by simp [hq])
  obtain ⟨time, type, x, y, z⟩ := e
  simp only [freeNext, wp_bind, wp_state, hq, wp_update]
  cases type with
  | boards => exact (h.sound.kinds _ hout).elim
  | triads =>
    obtain ⟨-, r, hr, he⟩ := h.sound.block _ hout
    simp only [Prod.mk.injEq] at he
    obtain ⟨rfl, rfl, rfl⟩ := he
    refine (freeTriads_spec (a := a.dequeued rest) h.tree hr).mono ?_ (fun _ _ h => h)
    rintro - a' ⟨tree, hrem, rfl⟩
    exact .block hq hr hrem
  | board =>
    obtain ⟨ho, -, -⟩ := h.sound.board (x, y) z hout
    rw [wp_bind]
    refine (returnBoard_spec (a := a.dequeued rest) (p := (x, y)) ho
      ⟨h.shape.full, h.shape.spare⟩).mono ?_ (fun _ _ h => h)
    rintro free a' ⟨rfl, rfl⟩
    split
    · next he =>
      rw [wp_bind, wp_update]
      refine (freeTriads_spec (r := cell (x, y))
        (a := ((a.dequeued rest).returned (x, y) z).closed (x, y)) h.tree
        (h.sound.cell _ ho)).mono ?_ (fun _ _ h => h)
      rintro - a' ⟨tree, hrem, rfl⟩
      refine .last hq he (fun z' hz' hc => ?_) hrem
      exact hp ⟨time, x, y, z, rest, hq, he, z', hz', hc⟩
    · next he => exact .board hq he

theorem ledger_tree (a : Allocator) (tree : PackTree) :
    ({ a with packTree := tree } : Allocator).ledger =
      { a.ledger with leaves := {r | r ∈ tree.allocated} } := rfl

theorem ledger_released_block {time : ℤ} {r : Region} {rest : List ToFree} {tree : PackTree}
    (h : a.Inv) (hq : a.toFree = ⟨time, .triads, (r.x, r.y, 0)⟩ :: rest)
    (hrem : a.packTree.Removes r tree) :
    ({ a.dequeued rest with packTree := tree } : Allocator).ledger = a.ledger.dropBlock r := by
  rw [ledger_tree, ledger_dequeued h.books hq]
  refine Ledger.ext ?_ rfl rfl rfl
  ext q
  exact hrem.mem q

theorem ledger_released_board {time z : ℤ} {p : ℤ × ℤ} {rest : List ToFree} (h : a.Inv)
    (hq : a.toFree = ⟨time, .board, (p.1, p.2, z)⟩ :: rest) (ho : p ∈ a.ledger.opened) :
    ((a.dequeued rest).returned p z).ledger = a.ledger.returnBoard p z := by
  have hl := ledger_dequeued h.books hq
  rw [ledger_returned (a := a.dequeued rest) ho, hl]
  rfl

theorem ledger_released_last {time z : ℤ} {p : ℤ × ℤ} {rest : List ToFree} {tree : PackTree}
    (h : a.Inv) (hq : a.toFree = ⟨time, .board, (p.1, p.2, z)⟩ :: rest)
    (ho : p ∈ a.ledger.opened) (hrem : a.packTree.Removes (cell p) tree) :
    ({ ((a.dequeued rest).returned p z).closed p with packTree := tree } : Allocator).ledger =
      (a.ledger.returnBoard p z).closeCell p := by
  have hb := ledger_released_board h hq ho
  have hp : p ∉ ((a.dequeued rest).returned p z).fullSingleBoardTriads :=
    fun hm => (mem_full_returned.mp hm).1 rfl
  rw [ledger_tree, ledger_closed hp, ← hb]
  refine Ledger.ext ?_ rfl rfl rfl
  ext q
  exact hrem.mem q

theorem opened_of_queue {time x y z : ℤ} {rest : List ToFree} (h : a.Inv)
    (hq : a.toFree = ⟨time, .board, (x, y, z)⟩ :: rest) :
    (x, y) ∈ a.ledger.opened ∧ single (x, y) z ∈ a.ledger.claims := by
  have hout : a.Outstanding (.board, (x, y, z)) := .inr (by simp [hq, ToFree.claim])
  exact ⟨(h.sound.board (x, y) z hout).1, hout⟩

theorem Released.inv {a' : Allocator} (h : a.Inv) (hr : Released a a') : a'.Inv := by
  cases hr with
  | block hq hr hrem =>
    have hb := h.books.dequeued hq
    refine ⟨hrem.valid, hrem.region.trans h.root, ⟨h.shape.full, h.shape.spare⟩,
      ⟨hb.keys, hb.ids, hb.live, hb.queue, hb.apart⟩, ?_⟩
    rw [ledger_released_block h hq hrem]
    refine h.sound.dropBlock hr (.inr ?_)
    rw [hq]
    exact List.mem_cons_self
  | @board time x y z rest hq hne =>
    obtain ⟨ho, hc⟩ := opened_of_queue h hq
    have hs : (a.dequeued rest).Shape := ⟨h.shape.full, h.shape.spare⟩
    refine ⟨h.tree, h.root, hs.returned _ _, (h.books.dequeued hq).returned _ _, ?_⟩
    rw [ledger_released_board (p := (x, y)) h hq ho]
    exact h.sound.returnBoard hc
  | @last time x y z rest tree hq he hno hrem =>
    obtain ⟨ho, hc⟩ := opened_of_queue h hq
    have hb := (h.books.dequeued hq).returned (x, y) z
    have hs : (a.dequeued rest).Shape := ⟨h.shape.full, h.shape.spare⟩
    have hsc := (hs.returned (x, y) z).closed (p := (x, y))
    refine ⟨hrem.valid, hrem.region.trans h.root, ⟨hsc.full, hsc.spare⟩,
      ⟨hb.keys, hb.ids, hb.live, hb.queue, hb.apart⟩, ?_⟩
    rw [ledger_released_last (p := (_, _)) h hq ho hrem]
    refine (h.sound.returnBoard hc).closeCell ho fun z' hz' => ?_
    obtain ⟨hz', hne⟩ := hz'
    exact hno z' (fun he => hne (he ▸ rfl)) hz'

/-- The parts of an allocator that only its owner sets, and its clock. -/
structure SameSetup (a a' : Allocator) : Prop where
  width : a'.width = a.width
  height : a'.height = a.height
  deadBoards : a'.deadBoards = a.deadBoards
  deadLinks : a'.deadLinks = a.deadLinks
  secondsBeforeFree : a'.secondsBeforeFree = a.secondsBeforeFree
  clock : a'.clock = a.clock

theorem SameSetup.refl (a : Allocator) : SameSetup a a := ⟨rfl, rfl, rfl, rfl, rfl, rfl⟩

theorem SameSetup.trans {b c : Allocator} (h : SameSetup a b) (h' : SameSetup b c) :
    SameSetup a c :=
  ⟨h'.width.trans h.width, h'.height.trans h.height, h'.deadBoards.trans h.deadBoards,
    h'.deadLinks.trans h.deadLinks, h'.secondsBeforeFree.trans h.secondsBeforeFree,
    h'.clock.trans h.clock⟩

theorem SameSetup.working {a' : Allocator} (h : SameSetup a a') : a'.working = a.working := by
  funext p
  unfold Allocator.working
  rw [h.deadBoards]

theorem Released.sameSetup {a' : Allocator} (h : Released a a') : SameSetup a a' := by
  cases h <;> exact ⟨rfl, rfl, rfl, rfl, rfl, rfl⟩

theorem Released.frame {a' : Allocator} (h : Released a a') :
    a'.allocationTypes = a.allocationTypes ∧ a'.allocationBoard = a.allocationBoard ∧
      a'.nextId = a.nextId ∧ a'.reads = a.reads ∧ ∃ e, a.toFree = e :: a'.toFree := by
  cases h with
  | block hq _ _ => exact ⟨rfl, rfl, rfl, rfl, _, hq⟩
  | board hq _ => exact ⟨rfl, rfl, rfl, rfl, _, hq⟩
  | last hq _ _ _ => exact ⟨rfl, rfl, rfl, rfl, _, hq⟩

end Allocator

end SpallocServer
