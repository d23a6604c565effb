import SpallocServer.Allocator.Ledger
import SpallocServer.Allocator.Spec

namespace SpallocServer

open Foundation Prog

namespace ToFree

def claim (e : ToFree) : Claim := (e.type, e.board)

end ToFree

namespace Allocator

open Ledger

def claimOf (a : Allocator) (id : ℕ) : Option Claim :=
  match a.allocationTypes.get? id, a.allocationBoard.get? id with
  | some type, some b => some (type, b)
  | _, _ => none

def Outstanding (a : Allocator) (c : Claim) : Prop :=
  (∃ id, a.claimOf id = some c) ∨ c ∈ a.toFree.map ToFree.claim

def ledger (a : Allocator) : Ledger where
  leaves := {r | r ∈ a.packTree.allocated}
  opened := {p | p ∈ a.fullSingleBoardTriads ∨ ∃ free, a.singleBoardTriads.get? p = some free}
  free := a.available
  claims := {c | a.Outstanding c}

structure Shape (a : Allocator) : Prop where
  full : ∀ p ∈ a.fullSingleBoardTriads, a.singleBoardTriads.get? p = none
  spare : ∀ p free, a.singleBoardTriads.get? p = some free → free.Nonempty

structure Books (a : Allocator) : Prop where
  keys : ∀ id, (a.allocationTypes.get? id).isSome = (a.allocationBoard.get? id).isSome
  ids : ∀ id, (a.allocationTypes.get? id).isSome → id < a.nextId
  live : ∀ i j c, a.claimOf i = some c → a.claimOf j = some c → i = j
  queue : (a.toFree.map ToFree.claim).Nodup
  apart : ∀ id c, a.claimOf id = some c → c ∉ a.toFree.map ToFree.claim

structure Inv (a : Allocator) : Prop where
  tree : a.packTree.Valid
  root : a.packTree.region = ⟨0, 0, a.width, a.height⟩
  shape : a.Shape
  books : a.Books
  sound : a.ledger.Sound

variable {a : Allocator} {p q : ℤ × ℤ} {z : ℤ} {r : Region} {tree : PackTree}

theorem mem_opened : p ∈ a.ledger.opened ↔
    p ∈ a.fullSingleBoardTriads ∨ ∃ free, a.singleBoardTriads.get? p = some free := Iff.rfl

theorem available_full (h : a.Shape) (hp : p ∈ a.fullSingleBoardTriads) :
    a.available p = ∅ := by
  simp [available, h.full p hp]

theorem claimOf_nextId (h : a.Books) : a.claimOf a.nextId = none := by
  unfold claimOf
  cases ht : a.allocationTypes.get? a.nextId with
  | none => rfl
  | some t => exact absurd (h.ids _ (by simp [ht])) (lt_irrefl _)

theorem claimOf_registered (a : Allocator) (type : AllocationType) (b : Board) (id : ℕ) :
    (a.registered type b).claimOf id =
      if a.nextId = id then some (type, b) else a.claimOf id := by
  unfold claimOf registered
  dsimp only
  rw [Dict.get?_set, Dict.get?_set]
  by_cases h : a.nextId = id <;> simp [h]

theorem outstanding_registered (h : a.Books) (type : AllocationType) (b : Board) (c : Claim) :
    (a.registered type b).Outstanding c ↔ c = (type, b) ∨ a.Outstanding c := by
  unfold Outstanding
  simp only [claimOf_registered]
  rw [← or_assoc]
  refine or_congr_left ⟨?_, ?_⟩
  · rintro ⟨id, hid⟩
    split at hid
    · exact .inl (Option.some.inj hid).symm
    · exact .inr ⟨id, hid⟩
  · rintro (rfl | ⟨id, hid⟩)
    · exact ⟨a.nextId, by simp⟩
    · refine ⟨id, ?_⟩
      rw [if_neg]
      · exact hid
      · rintro rfl
        rw [claimOf_nextId h] at hid
        cases hid

theorem Books.registered (h : a.Books) {type : AllocationType} {b : Board}
    (hc : ¬a.Outstanding (type, b)) : (a.registered type b).Books := by
  have hlive (id : ℕ) (h' : a.claimOf id = some (type, b)) : False := hc (.inl ⟨id, h'⟩)
  refine ⟨fun id => ?_, fun id hid => ?_, fun i j c hi hj => ?_, h.queue, fun id c hid => ?_⟩
  · simp only [Allocator.registered, Dict.get?_set]
    split
    · rfl
    · exact h.keys id
  · simp only [Allocator.registered, Dict.get?_set] at hid ⊢
    split at hid
    · omega
    · have := h.ids id hid
      omega
  · rw [claimOf_registered] at hi hj
    split at hi <;> split at hj
    · omega
    · obtain rfl := Option.some.inj hi
      exact (hlive j hj).elim
    · obtain rfl := Option.some.inj hj
      exact (hlive i hi).elim
    · exact h.live i j c hi hj
  · rw [claimOf_registered] at hid
    split at hid
    · obtain rfl := Option.some.inj hid
      exact fun hm => hc (.inr hm)
    · exact h.apart id c hid

theorem ledger_registered (h : a.Books) (type : AllocationType) (b : Board) :
    (a.registered type b).ledger =
      { a.ledger with claims := insert (type, b) a.ledger.claims } := by
  refine Ledger.ext rfl rfl rfl ?_
  ext c
  exact outstanding_registered h type b c

theorem ledger_block (h : a.Books) (hadd : a.packTree.Adds r tree) :
    ({ a with packTree := tree }.registered .triads (r.x, r.y, 0)).ledger =
      a.ledger.grantBlock r := by
  have hb : ({ a with packTree := tree } : Allocator).Books :=
    ⟨h.keys, h.ids, h.live, h.queue, h.apart⟩
  rw [ledger_registered hb]
  refine Ledger.ext ?_ rfl rfl rfl
  ext q
  exact hadd.mem q

theorem Inv.block (h : a.Inv) (hadd : a.packTree.Adds r tree) :
    ({ a with packTree := tree }.registered .triads (r.x, r.y, 0)).Inv := by
  have hr : r.Positive := hadd.valid.allocated_positive ((hadd.mem r).mpr (.inl rfl))
  have hb : ({ a with packTree := tree } : Allocator).Books :=
    ⟨h.books.keys, h.books.ids, h.books.live, h.books.queue, h.books.apart⟩
  refine ⟨hadd.valid, hadd.region.trans h.root, ⟨h.shape.full, h.shape.spare⟩,
    hb.registered ?_, ?_⟩
  · exact (h.sound.fresh hr hadd.fresh).2.2
  · rw [ledger_block h.books hadd]
    exact h.sound.grantBlock hr hadd.fresh

theorem get?_taken (a : Allocator) (p q : ℤ × ℤ) (z : ℤ) :
    (a.taken p z).singleBoardTriads.get? q =
      if q = p then (if (a.available p).erase z = ∅ then none else some ((a.available p).erase z))
      else a.singleBoardTriads.get? q := by
  unfold taken
  dsimp only
  by_cases hqp : q = p
  · subst hqp
    split <;> simp [*]
  · rw [if_neg hqp]
    split
    · exact Dict.get?_erase_ne _ (Ne.symm hqp)
    · exact Dict.get?_set_ne _ (Ne.symm hqp) _

theorem available_taken (a : Allocator) (p : ℤ × ℤ) (z : ℤ) :
    (a.taken p z).available = Function.update a.available p ((a.available p).erase z) := by
  funext q
  unfold available
  rw [get?_taken]
  by_cases hqp : q = p
  · subst hqp
    rw [Function.update_self, if_pos rfl]
    split
    · next he => exact he.symm
    · rfl
  · rw [Function.update_of_ne hqp, if_neg hqp]

theorem mem_full_taken :
    q ∈ (a.taken p z).fullSingleBoardTriads ↔
      (q = p ∧ (a.available p).erase z = ∅) ∨ q ∈ a.fullSingleBoardTriads := by
  unfold taken
  dsimp only
  split
  · next he => simp [he]
  · next he => simp [he]

theorem opened_taken (hz : z ∈ a.available p) :
    q ∈ (a.taken p z).ledger.opened ↔ q ∈ a.ledger.opened := by
  obtain ⟨free, hf, -⟩ := mem_available.mp hz
  rw [mem_opened, mem_opened, mem_full_taken, get?_taken]
  by_cases hqp : q = p
  · subst hqp
    by_cases he : (a.available q).erase z = ∅ <;> simp [he, hf]
  · simp [hqp]

theorem outstanding_taken (a : Allocator) (p : ℤ × ℤ) (z : ℤ) (c : Claim) :
    (a.taken p z).Outstanding c ↔ a.Outstanding c := by
  simp only [Outstanding, claimOf, taken]

theorem Books.taken (h : a.Books) (p : ℤ × ℤ) (z : ℤ) : (a.taken p z).Books := by
  obtain ⟨hk, hi, hl, hq, ha⟩ := h
  unfold claimOf at hl ha
  exact ⟨hk, hi, hl, hq, ha⟩

theorem Shape.taken (h : a.Shape) (hz : z ∈ a.available p) : (a.taken p z).Shape := by
  have hp : p ∉ a.fullSingleBoardTriads := by
    intro hp
    simp [available_full h hp] at hz
  refine ⟨fun q hq => ?_, fun q free hq => ?_⟩
  · rw [get?_taken]
    rw [mem_full_taken] at hq
    obtain ⟨rfl, he⟩ | hq := hq
    · rw [if_pos rfl, if_pos he]
    · rw [if_neg (by rintro rfl; exact hp hq)]
      exact h.full q hq
  · rw [get?_taken] at hq
    split at hq
    · split at hq
      · cases hq
      · next he =>
        obtain rfl := Option.some.inj hq
        exact Finset.nonempty_iff_ne_empty.mpr he
    · exact h.spare q free hq

theorem ledger_taken (h : a.Books) (hz : z ∈ a.available p) :
    ((a.taken p z).registered .board (p.1, p.2, z)).ledger = a.ledger.takeBoard p z := by
  rw [ledger_registered (h.taken p z)]
  refine Ledger.ext rfl ?_ ?_ ?_
  · ext q
    exact opened_taken hz
  · exact available_taken a p z
  · ext c
    exact or_congr_right (outstanding_taken a p z c)

theorem Inv.taken (h : a.Inv) (hz : z ∈ a.available p) :
    ((a.taken p z).registered .board (p.1, p.2, z)).Inv := by
  have hs := h.shape.taken hz
  refine ⟨h.tree, h.root, ⟨hs.full, hs.spare⟩, (h.books.taken p z).registered ?_, ?_⟩
  · rw [outstanding_taken]
    exact h.sound.fresh_single hz
  · rw [ledger_taken h.books hz]
    exact h.sound.takeBoard hz

theorem get?_opened (a : Allocator) (p q : ℤ × ℤ) (tree : PackTree) :
    (a.opened p tree).singleBoardTriads.get? q =
      if q = p then some (a.working p) else a.singleBoardTriads.get? q := by
  unfold opened
  dsimp only
  rw [Dict.get?_set]
  simp only [eq_comm]

theorem ledger_opened (hadd : a.packTree.Adds (cell p) tree) :
    (a.opened p tree).ledger = a.ledger.openCell p (a.working p) := by
  refine Ledger.ext ?_ ?_ ?_ rfl
  · ext q
    exact hadd.mem q
  · ext q
    change q ∈ a.fullSingleBoardTriads ∨ (∃ free, _ = some free) ↔ q = p ∨ q ∈ a.ledger.opened
    rw [get?_opened, mem_opened]
    by_cases hqp : q = p <;> simp [hqp]
  · funext q
    change (a.opened p tree).available q = Function.update a.available p (a.working p) q
    unfold available
    rw [get?_opened]
    by_cases hqp : q = p
    · subst hqp
      simp
    · simp [hqp]

theorem Inv.opened (h : a.Inv) (hadd : a.packTree.Adds (cell p) tree)
    (hw : (a.working p).Nonempty) : (a.opened p tree).Inv := by
  obtain ⟨-, ho, -⟩ := h.sound.fresh (cell_positive p) hadd.fresh
  rw [cell] at ho
  refine ⟨hadd.valid, hadd.region.trans h.root, ⟨fun q hq => ?_, fun q free hq => ?_⟩,
    ⟨h.books.keys, h.books.ids, h.books.live, h.books.queue, h.books.apart⟩, ?_⟩
  · rw [get?_opened, if_neg]
    · exact h.shape.full q hq
    · rintro rfl
      exact ho (.inl hq)
  · rw [get?_opened] at hq
    split at hq
    · obtain rfl := Option.some.inj hq
      exact hw
    · exact h.shape.spare q free hq
  · rw [ledger_opened hadd]
    exact h.sound.openCell (fun z hz => (mem_working.mp hz).1) hadd.fresh

def Serves (a : Allocator) (req : Request) : Prop :=
  req.Sane ∨ ∀ x y, req.x = .int x → req.y = .int y → (a.working (x, y)).Nonempty

/-- What `alloc` can do keeps the invariant, unless it opens a triad for a board that does not
exist. -/
theorem Outcome.inv_or_leak {req : Request} {res : Except Error (Option Allocation)}
    {a' : Allocator} (h : a.Inv) (ho : Outcome a req res a') :
    a'.Inv ∨ ∃ x y tree, a.packTree.Adds (cell (x, y)) tree ∧ ¬req.Sane ∧ req.x = .int x ∧
      req.y = .int y ∧ a' = a.opened (x, y) tree := by
  cases ho with
  | refused _ _ => exact .inl h
  | starved _ => exact .inl h
  | leaked hadd hsane hx hy => exact .inr ⟨_, _, _, hadd, hsane, hx, hy, rfl⟩
  | nothing => exact .inl h
  | triads _ _ _ _ hadd _ _ => exact .inl (h.block hadd)
  | spare hz _ => exact .inl (h.taken (p := (_, _)) hz)
  | fresh hadd hz _ =>
    exact .inl ((h.opened (p := (_, _)) hadd ⟨_, hz⟩).taken (by rwa [available_opened_self]))

theorem Outcome.inv {req : Request} {res : Except Error (Option Allocation)} {a' : Allocator}
    (h : a.Inv) (hr : a.Serves req) (ho : Outcome a req res a') : a'.Inv := by
  obtain hi | ⟨x, y, tree, hadd, hsane, hx, hy, rfl⟩ := ho.inv_or_leak h
  · exact hi
  · exact h.opened hadd ((hr.resolve_left hsane) x y hx hy)

end Allocator

end SpallocServer
