import SpallocServer.Allocator.CheckFree

namespace SpallocServer

open Foundation Prog

namespace Allocator

open Ledger

variable {a a' : Allocator} {req : Request} {res : Except Error (Option Allocation)}

theorem Released.claims (h : a.Inv) (hr : Released a a') :
    ∃ e, a.toFree = e :: a'.toFree ∧ a'.ledger.claims = a.ledger.claims \ {e.claim} := by
  cases hr with
  | block hq _ hrem => exact ⟨_, hq, congrArg Ledger.claims (ledger_released_block h hq hrem)⟩
  | @board time x y z rest hq _ =>
    obtain ⟨ho, -⟩ := opened_of_queue h hq
    exact ⟨_, hq, congrArg Ledger.claims (ledger_released_board (p := (x, y)) h hq ho)⟩
  | @last time x y z rest tree hq _ _ hrem =>
    obtain ⟨ho, -⟩ := opened_of_queue h hq
    exact ⟨_, hq, congrArg Ledger.claims (ledger_released_last (p := (x, y)) h hq ho hrem)⟩

theorem Released.leaves (hr : Released a a') : a'.ledger.leaves ⊆ a.ledger.leaves := by
  intro q hq
  cases hr with
  | block _ _ hrem => exact ((hrem.mem q).mp hq).1
  | board _ _ => exact hq
  | last _ _ _ hrem => exact ((hrem.mem q).mp hq).1

theorem Released.tracked (h : a.Inv) (hr : Released a a') :
    ∀ q ∈ a'.ledger.opened, q ∈ a.ledger.opened ∧
      ∀ z, a'.ledger.Tracked q z ↔ a.ledger.Tracked q z := by
  cases hr with
  | block hq _ hrem =>
    rw [ledger_released_block h hq hrem]
    exact fun q hq => ⟨hq, fun z => tracked_dropBlock _⟩
  | @board time x y z rest hq _ =>
    obtain ⟨ho, hc⟩ := opened_of_queue h hq
    rw [ledger_released_board (p := (x, y)) h hq ho]
    exact fun q hq => ⟨hq, fun z => tracked_returnBoard hc⟩
  | @last time x y z rest tree hq _ _ hrem =>
    obtain ⟨ho, hc⟩ := opened_of_queue h hq
    rw [ledger_released_last (p := (x, y)) h hq ho hrem]
    exact fun q hq => ⟨hq.1, fun z => (tracked_closeCell hq.2).trans (tracked_returnBoard hc)⟩

theorem Released.resilient (h : a.Inv) (hr : Released a a')
    (hs : a.ledger.Resilient a.working) : a'.ledger.Resilient a'.working := by
  rw [hr.sameSetup.working]
  exact hs.of_tracked (hr.tracked h)

theorem Released.exact (h : a.Inv) (hr : Released a a') (hs : a.ledger.Exact a.working) :
    a'.ledger.Exact a'.working := by
  rw [hr.sameSetup.working]
  exact hs.of_tracked (hr.tracked h)

theorem Released.occupied (h : a.Inv) (hr : Released a a') (he : a.ledger.Exact a.working)
    (ho : a.ledger.Occupied) : a'.ledger.Occupied := by
  cases hr with
  | block hq _ hrem =>
    rw [ledger_released_block h hq hrem]
    intro p hp
    obtain ⟨z, hz⟩ := ho p hp
    exact ⟨z, hz, fun hc => by cases (Prod.mk.inj hc).1⟩
  | @board time x y z rest hq hne =>
    obtain ⟨hop, hc⟩ := opened_of_queue h hq
    rw [ledger_released_board (p := (x, y)) h hq hop]
    intro p hp
    by_cases hpx : p = (x, y)
    · subst hpx
      by_contra hno
      have hout (z' : ℤ) (hz' : single (x, y) z' ∈ a.ledger.claims) : z' = z := by
        by_contra hzz
        exact hno ⟨z', hz', fun hs => hzz (single_injective hs).2⟩
      refine hne (Finset.ext fun z' => ?_)
      rw [← he _ hop, Finset.mem_insert]
      constructor
      · rintro (rfl | hz')
        · exact .inr hc
        · exact .inl hz'
      · rintro (hz' | hz')
        · exact .inr hz'
        · exact .inl (hout z' hz')
    · obtain ⟨z', hz'⟩ := ho p hp
      exact ⟨z', hz', fun hs => hpx (single_injective hs).1⟩
  | @last time x y z rest tree hq _ _ hrem =>
    obtain ⟨hop, hc⟩ := opened_of_queue h hq
    rw [ledger_released_last (p := (x, y)) h hq hop hrem]
    intro p hp
    obtain ⟨z', hz'⟩ := ho p hp.1
    exact ⟨z', hz', fun hs => hp.2 (single_injective hs).1⟩

theorem premature_of_resilient (h : a.Inv) (hs : a.ledger.Resilient a.working) :
    ¬a.Premature := by
  rintro ⟨time, x, y, z, rest, hq, he, z', hne, hc⟩
  obtain ⟨-, hc'⟩ := opened_of_queue h hq
  exact hs.last h.sound hc' he hne hc

theorem careful_of_resilient (h : a.Inv) (hs : a.ledger.Resilient a.working) (n : ℕ) :
    Careful n a := by
  induction n generalizing a with
  | zero => trivial
  | succ n ih =>
    intro e rest hq _
    have hp := premature_of_resilient h hs
    refine ⟨hp, ?_⟩
    obtain ⟨u, c, hfe, hr⟩ := wp_returns (freeNext_spec (a := a.ticked) h.ticked hq hp)
    rw [hfe]
    exact ih (hr.inv h.ticked) (hr.resilient h.ticked hs)

/-- Every board of an opened triad that works is spare or claimed, and one is claimed. -/
structure Settled (a : Allocator) : Prop where
  exact : a.ledger.Exact a.working
  occupied : a.ledger.Occupied

theorem Swept.resilient {n : ℕ} (hs : Swept a n a') (h : a.Inv)
    (hr : a.ledger.Resilient a.working) : a'.Inv ∧ a'.ledger.Resilient a'.working :=
  hs.induct (I := fun b => b.Inv ∧ b.ledger.Resilient b.working) ⟨h, hr⟩
    (fun _ hb => ⟨hb.1.ticked, hb.2⟩)
    (fun _ _ hb hrel => ⟨hrel.inv hb.1, hrel.resilient hb.1 hb.2⟩)

theorem Swept.settled {n : ℕ} (hs : Swept a n a') (h : a.Inv) (hst : a.Settled) :
    a'.Inv ∧ a'.Settled :=
  hs.induct (I := fun b => b.Inv ∧ b.Settled) ⟨h, hst⟩
    (fun _ hb => ⟨hb.1.ticked, ⟨hb.2.exact, hb.2.occupied⟩⟩)
    (fun _ _ hb hrel => ⟨hrel.inv hb.1, hrel.exact hb.1 hb.2.exact,
      hrel.occupied hb.1 hb.2.exact hb.2.occupied⟩)

theorem Expired.claims {n : ℕ} (hx : Expired a n a') (h : a.Inv) :
    a'.Inv ∧ ∀ c, a'.Outstanding c ↔
      a.Outstanding c ∧ c ∉ (a.toFree.take n).map ToFree.claim := by
  induction hx with
  | none => exact ⟨h, fun c => by simp⟩
  | @more n b c e rest hx hq he hr ih =>
    obtain ⟨hb, hcl⟩ := ih
    obtain ⟨e', hq', hcl'⟩ := hr.claims hb.ticked
    obtain ⟨h1, -⟩ := hx.queue
    refine ⟨hr.inv hb.ticked, fun d => ?_⟩
    have hd : c.Outstanding d ↔ b.Outstanding d ∧ d ≠ e'.claim := Set.ext_iff.mp hcl' d
    have htake : a.toFree.take (n + 1) = a.toFree.take n ++ [e'] := by
      have hdrop : a.toFree.drop n = e' :: c.toFree := h1.symm.trans hq'
      rw [List.take_add, hdrop]
      rfl
    rw [hd, hcl, htake, List.map_append, List.mem_append, not_or, and_assoc]
    simp

theorem Swept.claims {n : ℕ} (hs : Swept a n a') (h : a.Inv) (c : Claim) :
    a'.Outstanding c ↔ a.Outstanding c ∧ c ∉ (a.toFree.take n).map ToFree.claim := by
  cases hs with
  | empty hx _ => exact (hx.claims h).2 c
  | waiting hx _ _ => exact (hx.claims h).2 c

theorem Swept.leaves {n : ℕ} (hs : Swept a n a') : a'.ledger.leaves ⊆ a.ledger.leaves :=
  hs.induct (I := fun b => b.ledger.leaves ⊆ a.ledger.leaves) subset_rfl (fun _ hb => hb)
    (fun _ _ hb hr => hr.leaves.trans hb)

theorem SameSetup.serves (h : SameSetup a a') (hr : a.Serves req) : a'.Serves req := by
  unfold Serves
  rwa [h.working]

theorem Outcome.sameSetup (ho : Outcome a req res a') : SameSetup a a' := by
  cases ho <;> exact ⟨rfl, rfl, rfl, rfl, rfl, rfl⟩

theorem Outcome.resilient (h : a.Inv) (ho : Outcome a req res a')
    (hs : a.ledger.Resilient a.working) : a'.ledger.Resilient a'.working := by
  rw [ho.sameSetup.working]
  cases ho with
  | refused _ _ => exact hs
  | starved _ => exact hs
  | nothing => exact hs
  | triads _ _ _ _ hadd _ _ =>
    rw [ledger_block h.books hadd]
    exact hs.of_tracked fun q hq => ⟨hq, fun z => tracked_grantBlock _⟩
  | @spare x y z hz _ =>
    rw [ledger_taken (p := (x, y)) h.books hz]
    exact hs.of_tracked fun q hq => ⟨hq, fun z' => tracked_takeBoard hz⟩
  | @fresh x y z tree hadd hz _ =>
    have ho := (h.sound.fresh (cell_positive (x, y)) hadd.fresh).2.1
    have hi := h.opened (p := (x, y)) hadd ⟨z, hz⟩
    have hz' : z ∈ (a.opened (x, y) tree).available (x, y) := by rwa [available_opened_self]
    have hs' : (a.opened (x, y) tree).ledger.Resilient a.working := by
      rw [ledger_opened (p := (x, y)) hadd]
      exact h.sound.resilient_openCell ho hs
    rw [ledger_taken (p := (x, y)) hi.books hz']
    exact hs'.of_tracked fun q hq => ⟨hq, fun z' => tracked_takeBoard hz'⟩
  | @leaked x y tree hadd _ _ _ =>
    have ho := (h.sound.fresh (cell_positive (x, y)) hadd.fresh).2.1
    rw [ledger_opened (p := (x, y)) hadd]
    exact h.sound.resilient_openCell ho hs

/-- Every triad that is opened has a board in use, unless it was opened for a board that does
not exist. -/
theorem Outcome.occupied (h : a.Inv) (ho : Outcome a req res a')
    (hleak : ∀ x y tree, a.packTree.Adds (cell (x, y)) tree → req.x = .int x → req.y = .int y →
      req.Sane)
    (hs : a.ledger.Occupied) : a'.ledger.Occupied := by
  cases ho with
  | refused _ _ => exact hs
  | starved _ => exact hs
  | nothing => exact hs
  | triads _ _ _ _ hadd _ _ =>
    rw [ledger_block h.books hadd]
    exact fun p hp => (hs p hp).imp fun _ hz => .inr hz
  | @spare x y z hz _ =>
    rw [ledger_taken (p := (x, y)) h.books hz]
    exact fun p hp => (hs p hp).imp fun _ hz => .inr hz
  | @fresh x y z tree hadd hz _ =>
    have hi := h.opened (p := (x, y)) hadd ⟨z, hz⟩
    have hz' : z ∈ (a.opened (x, y) tree).available (x, y) := by rwa [available_opened_self]
    rw [ledger_taken (p := (x, y)) hi.books hz', ledger_opened (p := (x, y)) hadd]
    rintro p (rfl | hp)
    · exact ⟨z, .inl rfl⟩
    · exact (hs p hp).imp fun _ hz => .inr hz
  | leaked hadd hno hx hy => exact absurd (hleak _ _ _ hadd hx hy) hno

theorem Outcome.settled (h : a.Inv) (hsane : req.Sane) (ho : Outcome a req res a')
    (hs : a.Settled) : a'.Settled := by
  refine ⟨?_, ho.occupied h (fun _ _ _ _ _ _ => hsane) hs.occupied⟩
  rw [ho.sameSetup.working]
  cases ho with
  | refused _ _ => exact hs.exact
  | starved _ => exact hs.exact
  | nothing => exact hs.exact
  | triads _ _ _ _ hadd _ _ =>
    rw [ledger_block h.books hadd]
    exact hs.exact.of_tracked fun q hq => ⟨hq, fun z => tracked_grantBlock _⟩
  | @spare x y z hz _ =>
    rw [ledger_taken (p := (x, y)) h.books hz]
    exact hs.exact.of_tracked fun q hq => ⟨hq, fun z' => tracked_takeBoard hz⟩
  | @fresh x y z tree hadd hz _ =>
    have ho := (h.sound.fresh (cell_positive (x, y)) hadd.fresh).2.1
    have hi := h.opened (p := (x, y)) hadd ⟨z, hz⟩
    have hz' : z ∈ (a.opened (x, y) tree).available (x, y) := by rwa [available_opened_self]
    have hs' : (a.opened (x, y) tree).ledger.Exact a.working := by
      rw [ledger_opened (p := (x, y)) hadd]
      exact h.sound.exact_openCell ho hs.exact
    rw [ledger_taken (p := (x, y)) hi.books hz']
    exact hs'.of_tracked fun q hq => ⟨hq, fun z' => tracked_takeBoard hz'⟩
  | leaked _ hno _ _ => exact absurd hsane hno

theorem Outcome.leaves (ho : Outcome a req res a') : a.ledger.leaves ⊆ a'.ledger.leaves := by
  intro q hq
  cases ho with
  | refused _ _ => exact hq
  | starved _ => exact hq
  | nothing => exact hq
  | triads _ _ _ _ hadd _ _ => exact (hadd.mem q).mpr (.inr hq)
  | spare _ _ => exact hq
  | fresh hadd _ _ => exact (hadd.mem q).mpr (.inr hq)
  | leaked hadd _ _ _ => exact (hadd.mem q).mpr (.inr hq)

section New

variable (width height : ℤ) (deadBoards : Finset Board) (deadLinks : Finset BoardLink)
  (nextId : ℕ) (secondsBeforeFree : ℤ) (clock : ℕ → ℤ) (setPop : SetPop)

theorem ledger_new :
    (new width height deadBoards deadLinks nextId secondsBeforeFree clock setPop).ledger =
      ⟨∅, ∅, fun _ => ∅, ∅⟩ := by
  refine Ledger.ext ?_ ?_ ?_ ?_
  · ext r
    simp [ledger, new, PackTree.new]
  · ext p
    simp [ledger, new]
  · funext p
    simp [ledger, new, available]
  · ext c
    simp [ledger, new, Outstanding, claimOf]

theorem sound_new : (⟨∅, ∅, fun _ => ∅, ∅⟩ : Ledger).Sound := by
  constructor <;> simp

theorem inv_new (hw : 1 ≤ width) (hh : 1 ≤ height) :
    (new width height deadBoards deadLinks nextId secondsBeforeFree clock setPop).Inv := by
  have htree : (PackTree.new 0 0 width height).Valid := by
    refine ⟨?_, ?_⟩ <;> dsimp only <;> omega
  have hbooks : (new width height deadBoards deadLinks nextId secondsBeforeFree clock
      setPop).Books := by
    constructor <;> simp [new, claimOf]
  refine ⟨htree, rfl, ?_, hbooks, ?_⟩
  · constructor <;> simp [new]
  · rw [ledger_new]
    exact sound_new

theorem settled_new :
    (new width height deadBoards deadLinks nextId secondsBeforeFree clock setPop).Settled := by
  refine ⟨?_, ?_⟩
  · rw [ledger_new]
    exact fun p hp => hp.elim
  · rw [ledger_new]
    exact fun p hp => hp.elim

end New

theorem alloc_spec (h : a.Inv) (hc : Careful a.toFree.length a) (r : Request) :
    wp (alloc r) (fun al a' => ∃ k b, Swept a k b ∧ b.Inv ∧ Outcome b r (.ok al) a')
      (fun e a' => ∃ k b, Swept a k b ∧ b.Inv ∧ Outcome b r (.error e) a') a := by
  rw [alloc_eq, wp_bind]
  refine (checkFree_spec h hc).mono ?_ (fun _ _ h => h.elim)
  rintro - b ⟨hb, k, hs, -⟩
  refine (allocate_spec hb.tree r).mono (fun al a' ho => ?_) (fun e a' ho => ?_)
  · exact ⟨k, b, hs, hb, ho⟩
  · exact ⟨k, b, hs, hb, ho⟩

end Allocator

end SpallocServer
