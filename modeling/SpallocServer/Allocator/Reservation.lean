import SpallocServer.Allocator.Drain

namespace SpallocServer

open Foundation Prog Allocator Ledger

namespace Allocator

variable {a b : Allocator} {p : ℤ × ℤ} {k : ℕ}

/-- The boards of a triad among the first `k` entries of the queue. -/
def returning (a : Allocator) (k : ℕ) (p : ℤ × ℤ) : Finset ℤ :=
  (((a.toFree.take k).filter fun e => e.type = .board ∧ (e.board.1, e.board.2.1) = p).map
    fun e => e.board.2.2).toFinset

/-- The next `k` readings of the clock are late enough for the first `k` entries. -/
def Expires (a : Allocator) (k : ℕ) : Prop :=
  ∀ i e, i < k → a.toFree[i]? = some e →
    a.secondsBeforeFree * 1000000 ≤ a.clock (a.reads + i) - e.time

/-- Once the first entries of the queue, up to one for a board of the triad, are released, the
spare boards of the triad are just the boards that work now, but another one is still held. -/
def Hasty (a : Allocator) (k : ℕ) (p : ℤ × ℤ) : Prop :=
  (∃ time z, a.toFree[k]? = some ⟨time, .board, (p.1, p.2, z)⟩) ∧ a.Expires (k + 1) ∧
    a.available p ∪ a.returning (k + 1) p = a.working p ∧
    ∃ z, a.Outstanding (single p z) ∧ single p z ∉ (a.toFree.take (k + 1)).map ToFree.claim

def Prudent (a : Allocator) : Prop := ∀ k p, ¬a.Hasty k p

theorem returning_cons {e : ToFree} {rest : List ToFree} (hq : a.toFree = e :: rest)
    (hrest : b.toFree = rest) : a.returning (k + 1) p =
      if e.type = .board ∧ (e.board.1, e.board.2.1) = p then insert e.board.2.2 (b.returning k p)
      else b.returning k p := by
  unfold returning
  rw [hq, hrest, List.take_succ_cons, List.filter_cons]
  simp only [decide_eq_true_eq]
  split
  · rw [List.map_cons, List.toFinset_cons]
  · rfl

theorem returning_zero : a.returning 0 p = ∅ := rfl

theorem expires_cons {e : ToFree} {rest : List ToFree} (hq : a.toFree = e :: rest)
    (hearly : ¬a.Early e) (hrest : b.toFree = rest) (hclock : b.clock = a.clock)
    (hreads : b.reads = a.reads + 1) (hsecs : b.secondsBeforeFree = a.secondsBeforeFree)
    (h : b.Expires k) : a.Expires (k + 1) := by
  intro i d hi hd
  cases i with
  | zero =>
    rw [hq, List.getElem?_cons_zero] at hd
    obtain rfl := Option.some.inj hd
    unfold Early at hearly
    rw [Nat.add_zero]
    omega
  | succ i =>
    rw [hq, List.getElem?_cons_succ, ← hrest] at hd
    have hi' := h i d (by omega) hd
    rw [hclock, hreads, hsecs] at hi'
    rwa [← Nat.add_assoc, Nat.add_right_comm]

theorem hasty_of_premature {e : ToFree} {rest : List ToFree} (hq : a.toFree = e :: rest)
    (hearly : ¬a.Early e) (hp : a.Premature) : ∃ p, a.Hasty 0 p := by
  obtain ⟨time, x, y, z, rest', hq', he, z', hne, hout⟩ := hp
  obtain ⟨rfl, rfl⟩ := List.cons.inj (hq.symm.trans hq')
  refine ⟨(x, y), ⟨time, z, by rw [hq]; rfl⟩, ?_, ?_, z', hout, ?_⟩
  · refine expires_cons (b := { a with toFree := rest, reads := a.reads + 1 }) hq hearly rfl rfl
      rfl rfl fun i d hi => absurd hi (Nat.not_lt_zero i)
  · rw [returning_cons (b := { a with toFree := rest }) hq rfl, if_pos ⟨rfl, rfl⟩, returning_zero,
      Finset.union_insert, Finset.union_empty]
    exact he
  · rw [hq]
    simp only [List.take_succ_cons, List.take_zero, List.map_cons, List.map_nil,
      List.mem_singleton]
    exact fun hs => hne (single_injective (p := (x, y)) (q := (x, y)) hs).2

theorem Released.spare_union (h : a.Inv) (hr : Released a b)
    (hp : p ∈ b.ledger.opened) :
    b.available p ∪ b.returning k p = a.available p ∪ a.returning (k + 1) p := by
  cases hr with
  | @block time r rest tree hq _ _ =>
    rw [returning_cons (b := { a.dequeued rest with packTree := tree }) hq rfl,
      if_neg (by simp)]
    rfl
  | @board time x y z rest hq _ =>
    rw [returning_cons (b := (a.dequeued rest).returned (x, y) z) hq rfl, available_returned]
    by_cases hxy : (x, y) = p
    · subst hxy
      rw [if_pos ⟨rfl, rfl⟩, Function.update_self, Finset.union_insert, Finset.insert_union]
      rfl
    · rw [if_neg fun hc => hxy hc.2, Function.update_of_ne (Ne.symm hxy)]
      rfl
  | @last time x y z rest tree hq _ _ hrem =>
    obtain ⟨ho, hc⟩ := opened_of_queue h hq
    have hl := ledger_released_last (p := (x, y)) h hq ho hrem
    rw [hl] at hp
    have hxy : p ≠ (x, y) := hp.2
    have hav := congrFun (congrArg Ledger.free hl) p
    simp only [closeCell, Ledger.returnBoard, Function.update_of_ne hxy] at hav
    rw [returning_cons
      (b := { ((a.dequeued rest).returned (x, y) z).closed (x, y) with packTree := tree }) hq rfl,
      if_neg fun hc => hxy hc.2.symm]
    exact congrArg (· ∪ _) hav

/-- `b` is `a` after the release of the entry `e`: what is to come is seen one entry later. -/
structure Advances (a : Allocator) (e : ToFree) (b : Allocator) : Prop where
  entry : ∀ k, b.toFree[k]? = a.toFree[k + 1]?
  expires : ∀ k, b.Expires k → a.Expires (k + 1)
  claims : ∀ k, (a.toFree.take (k + 1)).map ToFree.claim =
    e.claim :: (b.toFree.take k).map ToFree.claim
  outstanding : ∀ c, b.Outstanding c ↔ a.Outstanding c ∧ c ≠ e.claim
  spare : ∀ p ∈ b.ledger.opened, ∀ k,
    b.available p ∪ b.returning k p = a.available p ∪ a.returning (k + 1) p
  working : b.working = a.working

theorem Released.advances {e : ToFree} {rest : List ToFree} (h : a.Inv)
    (hq : a.toFree = e :: rest) (hearly : ¬a.Early e) (hr : Released a.ticked b) :
    Advances a e b := by
  obtain ⟨-, -, -, hreads, e', he'⟩ := hr.frame
  obtain ⟨rfl, hrest⟩ := List.cons.inj (hq.symm.trans he')
  obtain ⟨d, hd, hcl⟩ := hr.claims h.ticked
  obtain ⟨rfl, -⟩ := List.cons.inj (hq.symm.trans hd)
  have hs := hr.sameSetup
  refine ⟨fun k => ?_, fun k hk => ?_, fun k => ?_, fun c => ?_, fun p hp k => ?_, hs.working⟩
  · rw [hq, List.getElem?_cons_succ, hrest]
  · exact expires_cons hq hearly hrest.symm hs.clock hreads hs.secondsBeforeFree hk
  · rw [hq, hrest, List.take_succ_cons, List.map_cons]
  · have hm : b.Outstanding c ↔ a.ticked.Outstanding c ∧ c ≠ e.claim := Set.ext_iff.mp hcl c
    exact hm
  · have hu := hr.spare_union h.ticked (k := k) hp
    exact hu

theorem Prudent.released {e : ToFree} {rest : List ToFree} (h : a.Inv) (hq : a.toFree = e :: rest)
    (hearly : ¬a.Early e) (hp : a.Prudent) (hr : Released a.ticked b) : b.Prudent := by
  rintro k p ⟨⟨time, z, hk⟩, hexp, hav, z', hout, hno⟩
  have hs := hr.advances h hq hearly
  have hopen : p ∈ b.ledger.opened := ((hr.inv h.ticked).sound.board p z' hout).1
  obtain ⟨hout', hne⟩ := (hs.outstanding _).mp hout
  refine hp (k + 1) p ⟨⟨time, z, ?_⟩, hs.expires _ hexp, ?_, z', hout', ?_⟩
  · rw [← hs.entry]
    exact hk
  · rw [← hs.spare p hopen, hav, hs.working]
  · rw [hs.claims, List.mem_cons, not_or]
    exact ⟨hne, hno⟩

theorem careful_of_prudent (h : a.Inv) (hp : a.Prudent) (n : ℕ) : Careful n a := by
  induction n generalizing a with
  | zero => trivial
  | succ n ih =>
    intro e rest hq hearly
    have hpre : ¬a.Premature := fun hpre =>
      have ⟨p, hh⟩ := hasty_of_premature hq hearly hpre
      hp 0 p hh
    refine ⟨hpre, ?_⟩
    obtain ⟨u, c, hfe, hr⟩ := wp_returns (freeNext_spec (a := a.ticked) h.ticked hq hpre)
    rw [hfe]
    exact ih (hr.inv h.ticked) (hp.released h hq hearly hr)

end Allocator

namespace Session

variable {s s' : Session} {c : Setup} {call : AllocatorCall}

/-- Every triad with a board held on its own is allocated, and in one of the two tables. -/
def Reserved (s : Session) : Prop :=
  ∀ l ∈ s.held, l.claim.1 = .board → ∀ b ∈ l.boards,
    cell (b.1, b.2.1) ∈ s.allocator.packTree.allocated ∧
      Xor ((b.1, b.2.1) ∈ s.allocator.singleBoardTriads.keys)
        ((b.1, b.2.1) ∈ s.allocator.fullSingleBoardTriads)

/-- The releases that are due are prudent, and a board that does not exist is only asked for in
a triad with a working board. -/
def Safe (s : Session) : AllocatorCall → Prop
  | .alloc r => s.allocator.Prudent ∧ s.allocator.Serves r
  | .checkFree => s.allocator.Prudent
  | .free _ => True
  | .setDeadBoards _ => True

theorem Inv.proper (h : s.Inv) (hc : s.Safe call) : s.Proper call := by
  have hcareful (hp : s.allocator.Prudent) := careful_of_prudent h.allocator hp
    s.allocator.toFree.length
  cases call with
  | alloc r => exact ⟨hcareful hc.1, hc.2⟩
  | free id => trivial
  | checkFree => exact hcareful hc
  | setDeadBoards d => trivial

theorem reachable_safe (h : ((system c).restrict Safe).Reachable s) : s.Inv := by
  refine h.invariant ?_ ?_
  · rintro s rfl
    exact inv_start c
  · rintro s call s' - hi ⟨hc, rfl⟩
    exact hi.run (hi.proper hc)

theorem Inv.reserved (h : s.Inv) : s.Reserved := by
  intro l hl hc b hb
  rcases (h.formed l hl).kind with hk | ⟨p, z, hk, -, hbs⟩
  · rw [hk] at hc
    cases hc
  · rw [hbs, Finset.mem_singleton] at hb
    subst hb
    have hout := h.claim_outstanding hl
    rw [hk] at hout
    have ho := (h.allocator.sound.board p z hout).1
    refine ⟨h.allocator.sound.cell p ho, ?_⟩
    rcases mem_opened_iff.mp ho with hkey | hfull
    · exact .inl ⟨hkey, fun hf => (h.full_apart p hf).1 hkey⟩
    · exact .inr ⟨hfull, (h.full_apart p hfull).1⟩

theorem Inv.alloc_error (h : s.Inv) {r : Request} {e : Error} (hc : s.Safe (.alloc r))
    (he : (s.run (.alloc r)).1 = .error e) : e.Argument := by
  have hr := run_spec h (h.proper hc)
  rw [he] at hr
  generalize (s.run (.alloc r)).2 = s' at hr
  generalize hres : (.error e : Except Error Unit) = res at hr
  cases hr with
  | granted _ _ _ _ => cases hres
  | @nothing _ k b a res hs hb ho hn =>
    cases ho with
    | refused _ ha =>
      cases hres
      exact ha
    | starved hempty =>
      exact absurd (hb.shape.spare _ _ hempty) Finset.not_nonempty_empty
    | _ => cases hres

theorem Inv.checkFree_ok (h : s.Inv) (hc : s.Safe .checkFree) : (s.run .checkFree).1 = .ok () := by
  have hr := run_spec h (h.proper hc)
  generalize s.run .checkFree = res at hr ⊢
  obtain ⟨res, s'⟩ := res
  cases hr with
  | checkFree _ _ => rfl

/-- In runs of safe calls, held boards keep their triad reserved and nothing is freed that is
not there. -/
theorem reserved_of_safe (c : Setup) (h : ((system c).restrict Safe).Reachable s) :
    s.Reserved ∧ (s.Safe .checkFree → (s.run .checkFree).1 = .ok ()) ∧
      ∀ r e, s.Safe (.alloc r) → (s.run (.alloc r)).1 = .error e →
        e ≠ .keyError ∧ ∀ message, e ≠ .freeError message := by
  have hi := reachable_safe h
  refine ⟨hi.reserved, hi.checkFree_ok, fun r e hc he => ?_⟩
  have ha := hi.alloc_error hc he
  constructor
  · rintro rfl
    exact ha
  · rintro message rfl
    exact ha

theorem prudent_of_empty {a : Allocator} (h : a.toFree = []) : a.Prudent := by
  rintro k p ⟨⟨time, z, hk⟩, -⟩
  simp [h] at hk

def spareDies : List AllocatorCall :=
  [.alloc { args := .nil }, .alloc { args := .nil }, .setDeadBoards {(0, 0, 2)}, .free 1]

theorem reachable_spareDies :
    ((system oneTriad).restrict Safe).Reachable (oneTriad.start.runs spareDies) := by
  have h0 : ((system oneTriad).restrict Safe).Reachable oneTriad.start := .start rfl
  have hnil (s : Session) : s.allocator.Serves { args := .nil } := .inl nofun
  have h1 := reachable_run h0 (.alloc { args := .nil })
    ⟨prudent_of_empty (by decide +kernel), hnil _⟩
  have h2 := reachable_run h1 (.alloc { args := .nil })
    ⟨prudent_of_empty (by decide +kernel), hnil _⟩
  have h3 := reachable_run h2 (.setDeadBoards {(0, 0, 2)}) trivial
  exact reachable_run h3 (.free 1) trivial

theorem prudent_spareDies : (oneTriad.start.runs spareDies).allocator.Prudent := by
  rintro k p ⟨⟨time, z, hk⟩, -, hav, -⟩
  have hq : (oneTriad.start.runs spareDies).allocator.toFree = [⟨0, .board, (0, 0, 0)⟩] := by
    decide +kernel
  rw [hq] at hk
  cases k with
  | succ k => simp at hk
  | zero =>
    simp only [List.getElem?_cons_zero, Option.some.injEq, ToFree.mk.injEq, Prod.mk.injEq] at hk
    obtain rfl : p = (0, 0) := Prod.ext hk.2.2.1.symm hk.2.2.2.1.symm
    revert hav
    decide +kernel

theorem reserved_of_safe_spareDies :
    (oneTriad.start.runs spareDies).Reserved ∧
      ((oneTriad.start.runs spareDies).run .checkFree).1 = .ok () :=
  ⟨(reserved_of_safe oneTriad reachable_spareDies).1,
    (reserved_of_safe oneTriad reachable_spareDies).2.1 prudent_spareDies⟩

/-- Two boards of the triad are allocated, the second one dies, and the first is given back. -/
def heldDies : List AllocatorCall :=
  [.alloc { args := .nil }, .alloc { args := .nil }, .setDeadBoards {(0, 0, 1)}, .free 1,
    .checkFree]

theorem reachable_heldDies : (system oneTriad).Reachable (oneTriad.start.runs heldDies) := by
  have h : ((system oneTriad).restrict fun _ _ => True).Reachable (oneTriad.start.runs heldDies) :=
    reachable_runs (.start rfl) fun _ _ => trivial
  exact h.of_restrict

/-- The triad is released with its second board still held, and freeing that board fails. -/
theorem heldDies_not_reserved :
    (system oneTriad).Reachable (oneTriad.start.runs heldDies) ∧
      ¬(oneTriad.start.runs heldDies).Reserved ∧
      ((oneTriad.start.runs (heldDies ++ [.free 2])).run .checkFree).1 = .error .keyError := by
  refine ⟨reachable_heldDies, fun hr => ?_,
    by decide +kernel⟩
  have hlost : ∃ l ∈ (oneTriad.start.runs heldDies).held, l.claim.1 = .board ∧
      ∃ b ∈ l.boards, cell (b.1, b.2.1) ∉
        (oneTriad.start.runs heldDies).allocator.packTree.allocated := by decide +kernel
  obtain ⟨l, hl, hc, b, hb, hno⟩ := hlost
  exact hno (hr l hl hc b hb).1

end Session

end SpallocServer
