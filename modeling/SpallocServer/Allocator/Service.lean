import SpallocServer.Foundation.Relational
import SpallocServer.Allocator.Reservation

namespace SpallocServer

open Foundation Prog

namespace Allocator

open Ledger

variable {a b a' : Allocator} {r : Request} {p : ℤ × ℤ} {z : ℤ}

theorem allocPossible_congr (h : SameSetup a a') (r : Request) :
    a'.allocPossible r = a.allocPossible r := by
  obtain ⟨w, hh, db, dl, s, n, t, at', ab, tf, st, fst, ck, rd, sp⟩ := a
  obtain ⟨w', hh', db', dl', s', n', t', at'', ab', tf', st', fst', ck', rd', sp'⟩ := a'
  obtain ⟨h1, h2, h3, h4, -, -⟩ := h
  dsimp only at h1 h2 h3 h4
  subst h1 h2 h3 h4
  rfl

theorem mapError_ok {ε ε' α : Type} {f : ε → ε'} {x : Except ε α} {v : α}
    (h : x.mapError f = .ok v) : x = .ok v := by
  cases x with
  | error e => cases h
  | ok u => exact congrArg _ (Except.ok.inj h)

theorem against_ok {op : String} {v : Value} {n : ℤ} (h : v.against op = .ok n) :
    v = .int n := by
  cases v with
  | int m => exact congrArg _ (Except.ok.inj h)
  | none => cases h
  | other t => cases h

theorem areaToRect_some {area w h : ℤ} {ratio : Option ℚ} {wh : Option (ℤ × ℤ)}
    (hr : AreaToRect.areaToRect area w h ratio = .ok wh) : ∃ q, ratio = some q ∧ 0 ≤ q := by
  unfold AreaToRect.areaToRect at hr
  split at hr
  · cases hr
  split at hr
  · cases hr
  · next q =>
    split at hr
    · cases hr
    · next hq => exact ⟨q, rfl, not_lt.mp hq⟩

theorem allocBoardsPossible_good {n : Value} {c : Constraints}
    (h : a.allocBoardsPossible n c = .ok true) :
    ∃ m q, n = .int m ∧ m.natAbs < floatLimit ∧ c.minRatio = some q ∧ 0 ≤ q := by
  unfold allocBoardsPossible at h
  obtain ⟨⟨boards, triads⟩, hn, h⟩ := bind_eq_ok.mp h
  obtain ⟨m, hint, hlimit⟩ : ∃ m, n = .int m ∧ m.natAbs < floatLimit := by
    cases n with
    | int k =>
      refine ⟨k, rfl, ?_⟩
      by_contra hle
      rw [triadsFor_overflow (not_lt.mp hle)] at hn
      cases hn
    | none => cases hn
    | other t => cases hn
  dsimp only at h
  split at h
  · cases h
  split at h
  · cases h
  obtain ⟨wh, hrect, -⟩ := bind_eq_ok.mp h
  obtain ⟨q, hq, hq0⟩ := areaToRect_some hrect
  exact ⟨m, q, hint, hlimit, hq, hq0⟩

theorem allocTriadsPossible_good {width height : Value} {c : Constraints}
    (h : a.allocTriadsPossible width height c = .ok true) :
    ∃ w v, width = .int w ∧ height = .int v := by
  unfold allocTriadsPossible at h
  obtain ⟨w, hw, h⟩ := bind_eq_ok.mp h
  split at h
  · cases h
  obtain ⟨v, hv, -⟩ := bind_eq_ok.mp h
  exact ⟨w, v, against_ok hw, against_ok hv⟩

theorem above_ok {v : Value} {n : ℤ} (h : v.above = .ok n) : v = .int n := by
  cases v with
  | int m => exact congrArg _ (Except.ok.inj h)
  | none => cases h
  | other t => cases h

theorem allocBoardPossible_good {x y z : Value} {torus : Flag}
    (h : a.allocBoardPossible x y z torus = .ok true) : torus = .false ∧ boardArgs x y z ∧
      (y ≠ .none → ∃ i j k, x = .int i ∧ y = .int j ∧ z = .int k ∧ 0 ≤ k ∧ k < 3) := by
  unfold allocBoardPossible at h
  dsimp only at h
  split at h
  · cases h
  next htorus =>
  split at h
  · cases h
  next hargs =>
  refine ⟨not_not.mp htorus, not_not.mp hargs, fun hy => ?_⟩
  rw [if_pos hy] at h
  obtain ⟨i, hi, h⟩ := bind_eq_ok.mp h
  split at h
  · cases h
  obtain ⟨j, hj, h⟩ := bind_eq_ok.mp h
  split at h
  · cases h
  obtain ⟨k, hk, h⟩ := bind_eq_ok.mp h
  split at h
  · cases h
  next hz =>
  exact ⟨i, j, k, above_ok hi, above_ok hj, above_ok hk, not_not.mp hz⟩

theorem good_of_possible (h : a.allocPossible r = .ok true) : r.Good := by
  unfold allocPossible at h
  obtain ⟨type, ht, h⟩ := bind_eq_ok.mp h
  unfold Request.Good
  rw [ht]
  cases type with
  | board => exact allocBoardPossible_good h
  | boards =>
    obtain ⟨⟨n, c⟩, hb, h⟩ := bind_eq_ok.mp h
    obtain ⟨m, q, rfl, hq⟩ := allocBoardsPossible_good h
    exact ⟨m, c, q, mapError_ok hb, hq⟩
  | triads =>
    obtain ⟨⟨width, height, c⟩, hb, h⟩ := bind_eq_ok.mp h
    obtain ⟨w, v, rfl, rfl⟩ := allocTriadsPossible_good h
    exact ⟨w, v, c, mapError_ok hb⟩

def Waiting (a : Allocator) (p : ℤ × ℤ) (z : ℤ) : Prop :=
  single p z ∈ a.toFree.map ToFree.claim

/-- Where a working board of a triad waits to be freed, and the others that work are spare or
wait as well, no other board of the triad is in use. -/
def Guarded (a : Allocator) : Prop :=
  ∀ p ∈ a.ledger.opened, (∃ z ∈ a.working p, a.Waiting p z) →
    (∀ z ∈ a.working p, z ∈ a.available p ∨ a.Waiting p z) →
    ∀ z, a.ledger.Tracked p z → z ∈ a.working p

theorem guarded_of_resilient (h : a.ledger.Resilient a.working) : a.Guarded := by
  rintro p hp ⟨z, hz, -⟩ hall
  apply h p hp ⟨z, hz⟩
  intro z' hz'
  exact (hall z' hz').imp_right .inr

theorem Guarded.not_premature (h : a.Inv) (hg : a.Guarded) : ¬a.Premature := by
  rintro ⟨time, x, y, z, rest, hq, he, z', hne, hc⟩
  obtain ⟨ho, -⟩ := opened_of_queue h hq
  have hw : a.Waiting (x, y) z := by
    rw [Waiting, hq]
    exact List.mem_cons_self
  have hz' : z' ∈ a.working (x, y) := by
    refine hg (x, y) ho ⟨z, he ▸ Finset.mem_insert_self _ _, hw⟩ (fun u hu => ?_) z' (.inr hc)
    rw [← he, Finset.mem_insert] at hu
    obtain rfl | hu := hu
    · exact .inr hw
    · exact .inl hu
  rw [← he, Finset.mem_insert] at hz'
  exact h.sound.fresh_single (hz'.resolve_left hne) hc

theorem Guarded.of_less (hg : a.Guarded) (hw : b.working = a.working)
    (h : ∀ p ∈ b.ledger.opened, p ∈ a.ledger.opened ∧ (∀ z, b.Waiting p z → a.Waiting p z) ∧
      (∀ z, z ∈ b.available p → z ∈ a.available p ∨ a.Waiting p z) ∧
      ∀ z, b.ledger.Tracked p z → a.ledger.Tracked p z) : b.Guarded := by
  rintro p hp ⟨z, hz, hzw⟩ hall
  rw [hw] at hz hall ⊢
  obtain ⟨ho, hwait, hav, htr⟩ := h p hp
  intro z' hz'
  refine hg p ho ⟨z, hz, hwait z hzw⟩ (fun u hu => ?_) z' (htr z' hz')
  obtain hu' | hu' := hall u hu
  · exact hav u hu'
  · exact .inr (hwait u hu')

theorem Guarded.released (h : a.Inv) (hg : a.Guarded) (hr : Released a b) : b.Guarded := by
  refine hg.of_less hr.sameSetup.working fun p hp => ?_
  obtain ⟨ho, htr⟩ := hr.tracked h p hp
  obtain ⟨-, -, -, -, e, hq⟩ := hr.frame
  refine ⟨ho, fun z hz => ?_, fun z hz => ?_, fun z => (htr z).mp⟩
  · rw [Waiting, hq]
    exact List.mem_cons_of_mem _ hz
  · cases hr with
    | block _ _ _ => exact .inl hz
    | @board time x y z' rest hq' _ =>
      rw [available_returned] at hz
      by_cases hxy : p = (x, y)
      · subst hxy
        rw [Function.update_self, Finset.mem_insert] at hz
        obtain rfl | hz := hz
        · rw [Waiting, hq']
          exact .inr List.mem_cons_self
        · exact .inl hz
      · rw [Function.update_of_ne hxy] at hz
        exact .inl hz
    | @last time x y z' rest tree hq' _ _ hrem =>
      obtain ⟨hop, -⟩ := opened_of_queue h hq'
      have hl := ledger_released_last (p := (x, y)) h hq' hop hrem
      rw [hl] at hp
      have hav := congrFun (congrArg Ledger.free hl) p
      simp only [closeCell, Ledger.returnBoard, Function.update_of_ne hp.2] at hav
      refine .inl ?_
      change z ∈ a.ledger.free p
      rw [← hav]
      exact hz

theorem careful_of_guarded (h : a.Inv) (hg : a.Guarded) (n : ℕ) : Careful n a := by
  induction n generalizing a with
  | zero => trivial
  | succ n ih =>
    intro e rest hq _
    have hp := hg.not_premature h
    refine ⟨hp, ?_⟩
    obtain ⟨u, c, hfe, hr⟩ := wp_returns (freeNext_spec (a := a.ticked) h.ticked hq hp)
    rw [hfe]
    exact ih (hr.inv h.ticked) (Guarded.released (a := a.ticked) h.ticked hg hr)

theorem Guarded.swept {n : ℕ} (h : a.Inv) (hg : a.Guarded) (hs : Swept a n b) :
    b.Inv ∧ b.Guarded :=
  hs.induct (I := fun b => b.Inv ∧ b.Guarded) ⟨h, hg⟩ (fun _ hb => ⟨hb.1.ticked, hb.2⟩)
    fun _ _ hb hr => ⟨hr.inv hb.1, hb.2.released hb.1 hr⟩

theorem Guarded.block {rect : Region} {tree : PackTree} (h : a.Inv) (hg : a.Guarded)
    (hadd : a.packTree.Adds rect tree) :
    ({ a with packTree := tree }.registered .triads (rect.x, rect.y, 0)).Guarded := by
  refine hg.of_less rfl fun p hp => ⟨hp, fun _ => id, fun _ => .inl, fun z hz => ?_⟩
  rw [ledger_block h.books hadd] at hz
  exact (tracked_grantBlock _).mp hz

theorem Guarded.taken (h : a.Inv) (hg : a.Guarded) (hz : z ∈ a.available p) :
    ((a.taken p z).registered .board (p.1, p.2, z)).Guarded := by
  refine hg.of_less rfl fun q hq => ?_
  rw [ledger_taken h.books hz] at hq ⊢
  refine ⟨hq, fun _ => id, fun u hu => .inl ?_, fun u => (tracked_takeBoard hz).mp⟩
  change u ∈ (a.taken p z).available q at hu
  rw [available_taken] at hu
  by_cases hqp : q = p
  · subst hqp
    rw [Function.update_self] at hu
    exact Finset.mem_of_mem_erase hu
  · rwa [Function.update_of_ne hqp] at hu

theorem Guarded.opened {tree : PackTree} (h : a.Inv) (hg : a.Guarded)
    (hadd : a.packTree.Adds (cell p) tree) : (a.opened p tree).Guarded := by
  have ho : p ∉ a.ledger.opened := (h.sound.fresh (cell_positive p) hadd.fresh).2.1
  rintro q - ⟨z, hz, hw⟩ hall
  have hq : q ∈ a.ledger.opened := (h.sound.board q z (.inr hw)).1
  have hqp : q ≠ p := by
    rintro rfl
    exact ho hq
  have hav (u : ℤ) : u ∈ (a.opened p tree).available q ↔ u ∈ a.available q := by
    rw [mem_available, mem_available, get?_opened, if_neg hqp]
  intro u hu
  rw [ledger_opened hadd, h.sound.tracked_openCell ho, if_neg hqp] at hu
  exact hg q hq ⟨z, hz, hw⟩ (fun v hv => (hall v hv).imp_left (hav v).mp) u hu

theorem Guarded.outcome {res : Except Error (Option Allocation)} (h : a.Inv) (hg : a.Guarded)
    (ho : Outcome a r res b) : b.Guarded := by
  cases ho with
  | refused _ _ => exact hg
  | starved _ => exact hg
  | nothing => exact hg
  | triads _ _ _ _ hadd _ _ => exact hg.block h hadd
  | spare hz _ => exact hg.taken (p := (_, _)) h hz
  | fresh hadd hz _ =>
    have hi := h.opened (p := (_, _)) hadd ⟨_, hz⟩
    exact (hg.opened (p := (_, _)) h hadd).taken hi (by rwa [available_opened_self])
  | leaked hadd _ _ _ => exact hg.opened (p := (_, _)) h hadd

structure Sturdy (a : Allocator) : Prop where
  inv : a.Inv
  guarded : a.Guarded

/-- A call that keeps what the owner has set and what is live. -/
structure Continues (a a' : Allocator) : Prop where
  setup : SameSetup a a'
  live : ∀ id c, a.claimOf id = some c → a'.claimOf id = some c
  resilient : a.ledger.Resilient a.working → a'.ledger.Resilient a'.working

theorem Swept.continues {n : ℕ} (h : a.Inv) (hs : Swept a n b) : Continues a b := by
  obtain ⟨ht, hb, -⟩ := hs.frame
  refine ⟨hs.sameSetup, fun id c hc => ?_, fun hr => (hs.resilient h hr).2⟩
  unfold claimOf at hc ⊢
  rwa [ht, hb]

theorem Continues.trans {c : Allocator} (h : Continues a b) (h' : Continues b c) :
    Continues a c :=
  ⟨h.setup.trans h'.setup, fun id d hd => h'.live id d (h.live id d hd),
    fun hr => h'.resilient (h.resilient hr)⟩

theorem Outcome.continues {res : Except Error (Option Allocation)} (h : a.Inv)
    (ho : Outcome a r res b) : Continues a b := by
  refine ⟨ho.sameSetup, fun id c hc => ?_, ho.resilient h⟩
  by_cases hal : ∃ al, res = .ok (some al)
  · obtain ⟨al, rfl⟩ := hal
    obtain ⟨l, hl⟩ := Session.outcome_granted h ho
    rw [hl.claims, if_neg]
    · exact hc
    · rintro rfl
      rw [claimOf_nextId h.books] at hc
      cases hc
  · obtain ⟨ht, hb, -, -⟩ := Session.outcome_frame ho fun al he => hal ⟨al, he⟩
    unfold claimOf at hc ⊢
    rwa [ht, hb]

theorem alloc_sturdy (h : a.Sturdy) (hr : r.Good) :
    wp (alloc r) (fun res a' => a'.Sturdy ∧ Continues a a' ∧
        ∀ al, res = some al → a.claimOf al.id = none ∧ ∃ c, a'.claimOf al.id = some c)
      (fun _ _ => False) a := by
  apply (alloc_spec h.inv (careful_of_guarded h.inv h.guarded _) r).mono
  · rintro res a' ⟨k, b, hs, hb, ho⟩
    obtain ⟨-, hgb⟩ := h.guarded.swept h.inv hs
    refine ⟨⟨ho.inv hb (.inl (good_sane hr)), hgb.outcome hb ho⟩,
      (hs.continues h.inv).trans (ho.continues hb), ?_⟩
    rintro al rfl
    obtain ⟨l, hl⟩ := Session.outcome_granted hb ho
    have hid : al.id = b.nextId := by
      have hl' := hl.id
      rw [← hl.lease] at hl'
      exact hl'
    obtain ⟨ht, hbd, hn⟩ := hs.frame
    rw [hid]
    constructor
    · rw [hn]
      exact claimOf_nextId h.inv.books
    · exact ⟨l.claim, by rw [hl.claims, if_pos rfl]⟩
  · rintro e a' ⟨k, b, hs, hb, ho⟩
    generalize hres : (Except.error e : Except Error (Option Allocation)) = res at ho
    cases ho with
    | refused hno _ => exact hno hr
    | starved hempty => exact Finset.not_nonempty_empty (hb.shape.spare _ _ hempty)
    | _ => cases hres

theorem checkFree_sturdy (h : a.Sturdy) :
    wp checkFree (fun _ a' => a'.Sturdy ∧ Continues a a') (fun _ _ => False) a := by
  apply (checkFree_spec h.inv (careful_of_guarded h.inv h.guarded _)).mono
  · rintro _ a' ⟨hi, k, hs, -⟩
    exact ⟨⟨hi, (h.guarded.swept h.inv hs).2⟩, hs.continues h.inv⟩
  · exact fun _ _ he => he

theorem free_inv {id : ℕ} {c : Claim} (h : a.Inv) (hc : a.claimOf id = some c) :
    wp (free id) (fun _ a' => a'.Inv ∧ SameSetup a a' ∧
        (∀ i, i ≠ id → a'.claimOf i = a.claimOf i) ∧
        (a.ledger.Resilient a.working → a'.ledger.Resilient a'.working))
      (fun _ _ => False) a := by
  apply (free_spec h.books id).mono
  · rintro _ a' ⟨d, hd, rfl⟩
    refine ⟨h.freed hd, ⟨rfl, rfl, rfl, rfl, rfl, rfl⟩, fun i hi => ?_, fun hr => ?_⟩
    · rw [claimOf_freed, if_neg (Ne.symm hi)]
    · rw [ledger_freed hd]
      exact hr
  · rintro e a' ⟨-, -, hno⟩
    rw [hc] at hno
    cases hno

/-- What calls make of a new allocator if no release in them is hasty, and if a board that does not
exist is only asked for in a triad with a working board. -/
inductive Unhurried : Allocator → Prop
  | new {width height secondsBeforeFree : ℤ} {deadBoards : Finset Board}
      {deadLinks : Finset BoardLink} {nextId : ℕ} {clock : ℕ → ℤ} {setPop : SetPop}
      (width_pos : 1 ≤ width) (height_pos : 1 ≤ height) :
      Unhurried (.new width height deadBoards deadLinks nextId secondsBeforeFree clock setPop)
  | alloc {a : Allocator} {r : Request} (h : Unhurried a) (prudent : a.Prudent)
      (serves : a.Serves r) : Unhurried ((Allocator.alloc r).run a).2
  | free {a : Allocator} (h : Unhurried a) (id : ℕ) : Unhurried ((Allocator.free id).run a).2
  | checkFree {a : Allocator} (h : Unhurried a) (prudent : a.Prudent) :
      Unhurried (Allocator.checkFree.run a).2
  | reconfigured {a : Allocator} (h : Unhurried a) (deadBoards : Finset Board)
      (deadLinks : Finset BoardLink) :
      Unhurried { a with deadBoards := deadBoards, deadLinks := deadLinks }

/-- No release has been hasty, and none will be, whatever is allocated before it. -/
structure Calm (a : Allocator) : Prop where
  unhurried : a.Unhurried
  guarded : a.Guarded

theorem Inv.reconfigured (h : a.Inv) (deadBoards : Finset Board) (deadLinks : Finset BoardLink) :
    ({ a with deadBoards := deadBoards, deadLinks := deadLinks } : Allocator).Inv :=
  ⟨h.tree, h.root, ⟨h.shape.full, h.shape.spare⟩,
    ⟨h.books.keys, h.books.ids, h.books.live, h.books.queue, h.books.apart⟩, h.sound⟩

theorem Unhurried.inv (h : a.Unhurried) : a.Inv := by
  induction h with
  | new hw hh => exact inv_new _ _ _ _ _ _ _ _ hw hh
  | @alloc a r _ hp hs ih =>
    apply wp_same (I := Inv)
    apply (alloc_spec ih (careful_of_prudent ih hp _) r).mono
    · intro _ b hb
      obtain ⟨_, _, hswept, hc, ho⟩ := hb
      exact ho.inv hc (hswept.sameSetup.serves hs)
    · intro _ b hb
      obtain ⟨_, _, hswept, hc, ho⟩ := hb
      exact ho.inv hc (hswept.sameSetup.serves hs)
  | @free a _ id ih =>
    apply wp_same (I := Inv)
    apply (free_spec ih.books id).mono
    · intro _ b hb
      obtain ⟨c, hc, rfl⟩ := hb
      exact ih.freed hc
    · intro _ b hb
      rw [hb.2.1]
      exact ih
  | @checkFree a _ hp ih =>
    apply wp_same (I := Inv)
    apply (checkFree_spec ih (careful_of_prudent ih hp _)).mono
    · exact fun _ _ hb => hb.1
    · exact fun _ _ hf => hf.elim
  | reconfigured _ deadBoards deadLinks ih => exact ih.reconfigured deadBoards deadLinks

theorem mem_returning {k : ℕ} :
    z ∈ a.returning k p ↔ single p z ∈ (a.toFree.take k).map ToFree.claim := by
  unfold returning
  rw [List.mem_toFinset, List.mem_map, List.mem_map]
  constructor
  · rintro ⟨e, he, rfl⟩
    obtain ⟨hin, hkey⟩ := List.mem_filter.mp he
    obtain ⟨htype, hp⟩ := of_decide_eq_true hkey
    refine ⟨e, hin, ?_⟩
    rw [ToFree.claim, htype, ← hp]
    rfl
  · rintro ⟨e, hin, he⟩
    obtain ⟨htype, hboard⟩ := Prod.mk.inj he
    have hboard : e.board = (p.1, p.2, z) := hboard
    refine ⟨e, List.mem_filter.mpr ⟨hin, decide_eq_true ⟨htype, ?_⟩⟩, ?_⟩
    · rw [hboard]
    · rw [hboard]

theorem Guarded.prudent (h : a.Inv) (hg : a.Guarded) : a.Prudent := by
  rintro k p ⟨⟨time, z, hk⟩, -, hall, z', hout, hlater⟩
  have hz : z ∈ a.returning (k + 1) p := by
    rw [mem_returning, List.mem_map]
    refine ⟨⟨time, .board, (p.1, p.2, z)⟩, List.mem_of_getElem? (i := k) ?_, rfl⟩
    rw [List.getElem?_take, if_pos k.lt_succ_self]
    exact hk
  have hwaits (u : ℤ) (hu : u ∈ a.returning (k + 1) p) : a.Waiting p u :=
    List.map_subset _ (List.take_subset _ _) (mem_returning.mp hu)
  have hopened := (h.sound.board p z' hout).1
  have hworks : z' ∈ a.working p := by
    apply hg p hopened ⟨z, hall ▸ Finset.mem_union_right _ hz, hwaits z hz⟩ _ z' (.inr hout)
    intro u hu
    rw [← hall, Finset.mem_union] at hu
    exact hu.imp_right (hwaits u)
  rw [← hall, Finset.mem_union] at hworks
  obtain hspare | hreturned := hworks
  · exact h.sound.fresh_single hspare hout
  · exact hlater (mem_returning.mp hreturned)

theorem Calm.sturdy (h : a.Calm) : a.Sturdy := ⟨h.unhurried.inv, h.guarded⟩

theorem guarded_of_empty (h : a.toFree = []) : a.Guarded := by
  rintro p - ⟨z, -, hw⟩
  unfold Waiting at hw
  rw [h] at hw
  exact absurd hw List.not_mem_nil

theorem calm_new {width height secondsBeforeFree : ℤ} {deadBoards : Finset Board}
    {deadLinks : Finset BoardLink} {nextId : ℕ} {clock : ℕ → ℤ} {setPop : SetPop}
    (hw : 1 ≤ width) (hh : 1 ≤ height) :
    (new width height deadBoards deadLinks nextId secondsBeforeFree clock setPop).Calm :=
  ⟨.new hw hh, guarded_of_empty rfl⟩

/-- A sound allocator from which nothing can be released too early, whatever is given back. -/
structure Robust (a : Allocator) : Prop where
  unhurried : a.Unhurried
  resilient : a.ledger.Resilient a.working

theorem Robust.inv (h : a.Robust) : a.Inv := h.unhurried.inv

theorem Robust.calm (h : a.Robust) : a.Calm := ⟨h.unhurried, guarded_of_resilient h.resilient⟩

theorem Robust.prudent (h : a.Robust) : a.Prudent := h.calm.guarded.prudent h.inv

theorem robust_new {width height secondsBeforeFree : ℤ} {deadBoards : Finset Board}
    {deadLinks : Finset BoardLink} {nextId : ℕ} {clock : ℕ → ℤ} {setPop : SetPop}
    (hw : 1 ≤ width) (hh : 1 ≤ height) :
    (new width height deadBoards deadLinks nextId secondsBeforeFree clock setPop).Robust :=
  ⟨.new hw hh, (settled_new _ _ _ _ _ _ _ _).exact.resilient⟩

theorem alloc_robust (h : a.Robust) (hr : r.Good) :
    wp (alloc r) (fun _ a' => a'.Robust) (fun _ _ => False) a := by
  have hrun := h.unhurried.alloc h.prudent (.inl (good_sane hr))
  apply ((alloc_sturdy h.calm.sturdy hr).and (wp_run (alloc r) a)).mono _ fun _ _ he => he.1
  intro _ b hb
  obtain ⟨⟨-, hc, -⟩, heq⟩ := hb
  rw [heq] at hrun
  exact ⟨hrun, hc.resilient h.resilient⟩

theorem checkFree_robust (h : a.Robust) :
    wp checkFree (fun _ a' => a'.Robust) (fun _ _ => False) a := by
  have hrun := h.unhurried.checkFree h.prudent
  apply ((checkFree_sturdy h.calm.sturdy).and (wp_run checkFree a)).mono _ fun _ _ he => he.1
  intro _ b hb
  obtain ⟨⟨-, hc⟩, heq⟩ := hb
  rw [heq] at hrun
  exact ⟨hrun, hc.resilient h.resilient⟩

theorem claimOf_of_type {id : ℕ} (h : a.Inv) (hid : (a.allocationTypes.get? id).isSome) :
    ∃ c, a.claimOf id = some c := by
  obtain ⟨type, htype⟩ := Option.isSome_iff_exists.mp hid
  rw [h.books.keys] at hid
  obtain ⟨b, hb⟩ := Option.isSome_iff_exists.mp hid
  exact ⟨(type, b), by rw [claimOf, htype, hb]⟩

theorem free_robust {id : ℕ} (h : a.Robust) (hid : (a.allocationTypes.get? id).isSome) :
    wp (free id) (fun _ a' => a'.Robust) (fun _ _ => False) a := by
  obtain ⟨c, hc⟩ := claimOf_of_type h.inv hid
  have hrun := h.unhurried.free id
  apply ((free_inv h.inv hc).and (wp_run (free id) a)).mono _ fun _ _ he => he.1
  intro _ b hb
  obtain ⟨⟨-, -, -, hresilient⟩, heq⟩ := hb
  rw [heq] at hrun
  exact ⟨hrun, hresilient h.resilient⟩

/-- `S` is kept while jobs are served. -/
structure Closed (S : Allocator → Prop) : Prop where
  alloc : ∀ a r, S a → r.Good → wp (Allocator.alloc r) (fun _ a' => S a') (fun _ a' => S a') a
  checkFree : ∀ a, S a → wp Allocator.checkFree (fun _ a' => S a') (fun _ a' => S a') a

structure Stable (S : Allocator → Prop) : Prop extends Closed S where
  free : ∀ a id, S a → (a.allocationTypes.get? id).isSome →
    wp (Allocator.free id) (fun _ a' => S a') (fun _ a' => S a') a

theorem stable_all : Stable fun _ => True :=
  ⟨⟨fun _ _ _ _ => wp_trivial _, fun _ _ => wp_trivial _⟩, fun _ _ _ _ => wp_trivial _⟩

theorem stable_robust : Stable Robust where
  alloc _ _ h hr := (alloc_robust h hr).mono (fun _ _ ha => ha) fun _ _ hf => hf.elim
  checkFree _ h := (checkFree_robust h).mono (fun _ _ ha => ha) fun _ _ hf => hf.elim
  free _ _ h hid := (free_robust h hid).mono (fun _ _ ha => ha) fun _ _ hf => hf.elim

structure Sound (S : Allocator → Prop) : Prop extends Closed S where
  sturdy : ∀ a, S a → a.Sturdy

theorem sound_robust : Sound Robust := ⟨stable_robust.toClosed, fun _ h => h.calm.sturdy⟩

end Allocator

end SpallocServer
