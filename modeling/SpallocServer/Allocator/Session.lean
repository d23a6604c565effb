import SpallocServer.Foundation.System
import SpallocServer.Allocator.Accounting

namespace SpallocServer

open Foundation Prog Allocator Ledger

/-- An allocation, with what it has to give back and the rectangle of triads it is part of. -/
structure Lease where
  allocation : Allocation
  claim : Claim
  rectangle : Region

namespace Lease

abbrev id (l : Lease) : ℕ := l.allocation.id

abbrev boards (l : Lease) : Finset Board := l.allocation.boards

abbrev periphery (l : Lease) : Finset BoardLink := l.allocation.periphery

end Lease

/-- One call on an allocator; the last one is what its owner does to reconfigure it. -/
inductive AllocatorCall where
  | alloc (r : Request)
  | free (id : ℕ)
  | checkFree
  | setDeadBoards (deadBoards : Finset Board)

/-- An allocator and the allocations it has given out: those that are live, those that wait
in the queue, and the entries that were released, each with the reading that released it. -/
structure Session where
  allocator : Allocator
  live : List Lease
  freeing : List Lease
  released : List (ToFree × ℤ)

namespace Session

/-- Returned by `alloc` and not yet processed by `_free_next`. -/
def held (s : Session) : List Lease := s.live ++ s.freeing

def lease (a : Allocator) (al : Allocation) : Lease :=
  let b := (a.allocationBoard.get? al.id).getD (0, 0, 0)
  { allocation := al
    claim := ((a.allocationTypes.get? al.id).getD .board, b)
    rectangle := (a.packTree.allocated.find? fun r => r.x = b.1 ∧ r.y = b.2.1).getD
      (cell (b.1, b.2.1)) }

def swept (s : Session) (a : Allocator) : Session :=
  let n := s.allocator.toFree.length - a.toFree.length
  { allocator := a
    live := s.live
    freeing := s.freeing.drop n
    released := s.released ++ (s.allocator.toFree.take n).zipIdx.map fun (e, k) =>
      (e, s.allocator.clock (s.allocator.reads + k)) }

def run (s : Session) : AllocatorCall → Except Error Unit × Session
  | .alloc r =>
    match (Allocator.alloc r).run s.allocator with
    | (.ok (some al), a) => (.ok (), { s.swept a with live := s.live ++ [lease a al] })
    | (.ok none, a) => (.ok (), s.swept a)
    | (.error e, a) => (.error e, s.swept a)
  | .free id =>
    match (Allocator.free id).run s.allocator with
    | (.ok (), a) => (.ok (), { s with
        allocator := a
        live := s.live.filter (·.id ≠ id)
        freeing := s.freeing ++ s.live.filter (·.id = id) })
    | (.error e, a) => (.error e, { s with allocator := a })
  | .checkFree =>
    match Allocator.checkFree.run s.allocator with
    | (.ok _, a) => (.ok (), s.swept a)
    | (.error e, a) => (.error e, s.swept a)
  | .setDeadBoards deadBoards =>
    (.ok (), { s with allocator := { s.allocator with deadBoards := deadBoards } })

/-- One call after another. -/
def runs (s : Session) (calls : List AllocatorCall) : Session :=
  calls.foldl (fun s call => (s.run call).2) s

/-- What `alloc` returned for a lease fits what the allocator recorded for it. -/
structure Formed (a : Allocator) (l : Lease) : Prop where
  positive : l.rectangle.Positive
  inside : ∀ b ∈ l.boards, (b.1, b.2.1) ∈ l.rectangle.cells ∧ 0 ≤ b.2.2 ∧ b.2.2 < 3
  kind : l.claim = block l.rectangle ∨
    ∃ p z, l.claim = single p z ∧ l.rectangle = cell p ∧ l.boards = {(p.1, p.2, z)}
  periphery : ∀ b link, (b, link) ∈ l.periphery ↔
    b ∈ l.boards ∧ Coordinates.neighbour b link a.width a.height ∉ l.boards

structure Inv (s : Session) : Prop where
  allocator : s.allocator.Inv
  live : ∀ id c, s.allocator.claimOf id = some c ↔ ∃ l ∈ s.live, l.id = id ∧ l.claim = c
  freeing : s.freeing.map Lease.claim = s.allocator.toFree.map ToFree.claim
  ids : (s.held.map Lease.id).Nodup
  next : ∀ l ∈ s.held, l.id < s.allocator.nextId
  leaves : ∀ l ∈ s.held, l.rectangle ∈ s.allocator.ledger.leaves
  formed : ∀ l ∈ s.held, Formed s.allocator l

def Proper (s : Session) : AllocatorCall → Prop
  | .alloc r => Careful s.allocator.toFree.length s.allocator ∧ s.allocator.Serves r
  | .checkFree => Careful s.allocator.toFree.length s.allocator
  | .free _ => True
  | .setDeadBoards _ => True

theorem Formed.congr {a a' : Allocator} {l : Lease} (h : Formed a l) (hw : a'.width = a.width)
    (hh : a'.height = a.height) : Formed a' l :=
  ⟨h.positive, h.inside, h.kind, by rw [hw, hh]; exact h.periphery⟩

variable {s : Session} {a a' : Allocator}

structure Granted (a : Allocator) (al : Allocation) (a' : Allocator) (l : Lease) : Prop where
  lease : lease a' al = l
  id : l.id = a.nextId
  next : a'.nextId = a.nextId + 1
  claims : ∀ id, a'.claimOf id = if a.nextId = id then some l.claim else a.claimOf id
  queue : a'.toFree = a.toFree
  leaf : l.rectangle ∈ a'.ledger.leaves
  formed : Formed a' l

theorem find_leaf {t : PackTree} (ht : t.Valid) {r : Region} (hr : r ∈ t.allocated) :
    t.allocated.find? (fun q => q.x = r.x ∧ q.y = r.y) = some r := by
  have hs : (t.allocated.find? fun q => q.x = r.x ∧ q.y = r.y).isSome := by
    rw [List.find?_isSome]
    exact ⟨r, hr, by simp⟩
  obtain ⟨q, hq⟩ := Option.isSome_iff_exists.mp hs
  have hcorner := List.find?_some hq
  simp only [decide_eq_true_eq] at hcorner
  rw [hq, ht.eq_of_corner (List.mem_of_find?_eq_some hq) hr hcorner.1 hcorner.2]

theorem lease_registered {type : AllocationType} {b : Board} {al : Allocation} {r : Region}
    (ht : a.packTree.Valid) (hr : r ∈ a.packTree.allocated) (hx : r.x = b.1) (hy : r.y = b.2.1)
    (hid : al.id = a.nextId) :
    lease (a.registered type b) al = ⟨al, (type, b), r⟩ := by
  have hf := find_leaf ht hr
  rw [hx, hy] at hf
  simp only [lease, Allocator.registered, hid, Dict.get?_set_self, Option.getD_some]
  rw [hf, Option.getD_some]

theorem granted_block {r : Region} {tree : PackTree} {f : CandidateFilter} {torus : WrapAround}
    {boards : Finset Board} (hadd : a.packTree.Adds r tree) (hw : f.width = a.width)
    (hh : f.height = a.height)
    (hb : boards = f.enumerateBoards r.x r.y r.width r.height) :
    Granted a ⟨a.nextId, boards, (f.classifyLinks boards).periphery, torus⟩
      ({ a with packTree := tree }.registered .triads (r.x, r.y, 0))
      ⟨⟨a.nextId, boards, (f.classifyLinks boards).periphery, torus⟩, block r, r⟩ := by
  have hr : r ∈ tree.allocated := (hadd.mem r).mpr (.inl rfl)
  have hpos := hadd.valid.allocated_positive hr
  refine ⟨lease_registered (a := { a with packTree := tree }) hadd.valid hr rfl rfl rfl, rfl, rfl,
    fun id => claimOf_registered _ _ _ _, rfl, hr, hpos, fun b hm => ?_, .inl rfl,
    fun b link => ?_⟩
  · subst hb
    have hreg := (CandidateFilter.mem_enumerateBoards hpos.1 hpos.2 hm).1
    obtain ⟨hrange, hz⟩ := CandidateFilter.mem_regionBoards.mp hreg
    exact ⟨Region.mem_cells.mpr (of_decide_eq_true hrange), hz⟩
  · rw [← hw, ← hh]
    exact CandidateFilter.mem_periphery

theorem mem_ofBoard_periphery {id : ℕ} {b c : Board} {link : Links} (w h : ℤ)
    (hz : 0 ≤ b.2.2 ∧ b.2.2 < 3) :
    (c, link) ∈ (Allocation.ofBoard id b).periphery ↔
      c ∈ (Allocation.ofBoard id b).boards ∧
        Coordinates.neighbour c link w h ∉ (Allocation.ofBoard id b).boards := by
  simp only [Allocation.ofBoard, Finset.mem_image, Finset.mem_univ, true_and, Prod.mk.injEq,
    Finset.mem_singleton]
  constructor
  · rintro ⟨_, rfl, rfl⟩
    exact ⟨rfl, Coordinates.neighbour_ne hz _⟩
  · rintro ⟨rfl, -⟩
    exact ⟨link, rfl, rfl⟩

theorem granted_board {p : ℤ × ℤ} {z : ℤ} (h : a.Inv) (hz : z ∈ a.available p) :
    Granted a (.ofBoard a.nextId (p.1, p.2, z)) ((a.taken p z).registered .board (p.1, p.2, z))
      ⟨.ofBoard a.nextId (p.1, p.2, z), single p z, cell p⟩ := by
  have ho := h.sound.opened_of_free hz
  have hleaf := h.sound.cell p ho
  have h3 := h.sound.spare p ho z hz
  refine ⟨lease_registered (a := a.taken p z) h.tree hleaf rfl rfl rfl, rfl, rfl, fun id => ?_,
    rfl, hleaf, cell_positive p, fun b hb => ?_, .inr ⟨p, z, rfl, rfl, rfl⟩, fun b link => ?_⟩
  · rw [claimOf_registered]
    simp only [claimOf, taken]
    rfl
  · obtain rfl := Finset.mem_singleton.mp hb
    exact ⟨cell_mem p, h3⟩
  · exact mem_ofBoard_periphery _ _ h3

theorem outcome_granted {r : Request} {al : Allocation} (h : a.Inv)
    (ho : Outcome a r (.ok (some al)) a') : ∃ l, Granted a al a' l := by
  cases ho with
  | triads hw hh _ _ hadd hb _ => exact ⟨_, granted_block hadd hw hh hb⟩
  | spare hz _ => exact ⟨_, granted_board (p := (_, _)) h hz⟩
  | @fresh x y z tree hadd hz _ =>
    have hi := h.opened (p := (x, y)) hadd ⟨_, hz⟩
    have hz' : z ∈ (a.opened (x, y) tree).available (x, y) := by rwa [available_opened_self]
    obtain ⟨h1, h2, h3, h4, h5, h6, h7⟩ := granted_board (p := (x, y)) hi hz'
    exact ⟨_, h1, h2, h3, h4, h5, h6, h7⟩

theorem outcome_frame {r : Request} {res : Except Error (Option Allocation)}
    (ho : Outcome a r res a') (hn : ∀ al, res ≠ .ok (some al)) :
    a'.allocationTypes = a.allocationTypes ∧ a'.allocationBoard = a.allocationBoard ∧
      a'.nextId = a.nextId ∧ a'.toFree = a.toFree := by
  cases ho with
  | refused _ _ => exact ⟨rfl, rfl, rfl, rfl⟩
  | starved _ => exact ⟨rfl, rfl, rfl, rfl⟩
  | nothing => exact ⟨rfl, rfl, rfl, rfl⟩
  | leaked _ _ _ _ => exact ⟨rfl, rfl, rfl, rfl⟩
  | triads _ _ _ _ _ _ _ => exact absurd rfl (hn _)
  | spare _ _ => exact absurd rfl (hn _)
  | fresh _ _ _ => exact absurd rfl (hn _)

theorem Inv.claim_outstanding (h : s.Inv) {l : Lease} (hl : l ∈ s.held) :
    s.allocator.Outstanding l.claim := by
  rcases List.mem_append.mp hl with hl | hl
  · exact .inl ⟨l.id, (h.live _ _).mpr ⟨l, hl, rfl, rfl⟩⟩
  · refine .inr ?_
    rw [← h.freeing]
    exact List.mem_map_of_mem hl

theorem leaf_of_outstanding {l : Lease} (ha : a.Inv) (hb : a'.Inv)
    (hsub : a'.ledger.leaves ⊆ a.ledger.leaves) (hf : Formed a l)
    (hl : l.rectangle ∈ a.ledger.leaves) (hc : a'.Outstanding l.claim) :
    l.rectangle ∈ a'.ledger.leaves := by
  rcases hf.kind with hk | ⟨p, z, hk, hr, -⟩
  · rw [hk] at hc
    obtain ⟨-, q, hq, hx, hy⟩ := hb.sound.block_leaf hc
    rwa [← ha.sound.corner (hsub hq) hl hx hy]
  · rw [hk] at hc
    rw [hr]
    exact hb.sound.cell p (hb.sound.board p z hc).1

theorem swept_eq {k : ℕ} (hs : Swept s.allocator k a) :
    s.swept a =
      { allocator := a
        live := s.live
        freeing := s.freeing.drop k
        released := s.released ++ (s.allocator.toFree.take k).zipIdx.map fun (e, k) =>
          (e, s.allocator.clock (s.allocator.reads + k)) } := by
  obtain ⟨hq, hk, -⟩ := hs.queue
  have hn : s.allocator.toFree.length - a.toFree.length = k := by
    rw [hq, List.length_drop]
    omega
  unfold swept
  rw [hn]

theorem Inv.swept (h : s.Inv) {k : ℕ} (hs : Swept s.allocator k a) (ha : a.Inv) :
    (s.swept a).Inv := by
  obtain ⟨hq, -, -⟩ := hs.queue
  obtain ⟨ht, hb, hn⟩ := hs.frame
  have hsetup := hs.sameSetup
  have hclaim (id : ℕ) : a.claimOf id = s.allocator.claimOf id := by
    unfold claimOf
    rw [ht, hb]
  have hsub : List.Sublist (s.live ++ s.freeing.drop k) s.held :=
    List.Sublist.append_left (List.drop_sublist _ _) _
  have hfreeing : (s.freeing.drop k).map Lease.claim = a.toFree.map ToFree.claim := by
    rw [List.map_drop, h.freeing, hq, List.map_drop]
  have hout (l : Lease) (hl : l ∈ s.live ++ s.freeing.drop k) : a.Outstanding l.claim := by
    rcases List.mem_append.mp hl with hl | hl
    · exact .inl ⟨l.id, (hclaim _).trans ((h.live _ _).mpr ⟨l, hl, rfl, rfl⟩)⟩
    · exact .inr (hfreeing ▸ List.mem_map_of_mem hl)
  rw [swept_eq hs]
  refine ⟨ha, fun id c => ?_, hfreeing, h.ids.sublist (hsub.map _),
    fun l hl => ?_, fun l hl => ?_, fun l hl => ?_⟩
  · rw [hclaim]
    exact h.live id c
  · exact (h.next l (hsub.subset hl)).trans_eq hn.symm
  · exact leaf_of_outstanding h.allocator ha hs.leaves (h.formed l (hsub.subset hl))
      (h.leaves l (hsub.subset hl)) (hout l hl)
  · exact (h.formed l (hsub.subset hl)).congr hsetup.width hsetup.height

theorem Inv.granted (h : s.Inv) {al : Allocation} {l : Lease} (hg : Granted s.allocator al a l)
    (ha : a.Inv) (hs : SameSetup s.allocator a)
    (hleaves : s.allocator.ledger.leaves ⊆ a.ledger.leaves) :
    ({ s with allocator := a, live := s.live ++ [l] } : Session).Inv := by
  have hheld (m : Lease) : m ∈ (s.live ++ [l]) ++ s.freeing ↔ m = l ∨ m ∈ s.held := by
    simp only [held, List.mem_append, List.mem_singleton]
    tauto
  refine ⟨ha, fun id c => ?_, ?_, ?_, fun m hm => ?_, fun m hm => ?_, fun m hm => ?_⟩
  · dsimp only
    rw [hg.claims]
    split
    · next hid =>
      subst hid
      have hno : ∀ m ∈ s.live, m.id ≠ s.allocator.nextId := fun m hm =>
        (h.next m (List.mem_append_left _ hm)).ne
      simp only [List.mem_append, List.mem_singleton, Option.some.injEq]
      constructor
      · rintro rfl
        exact ⟨l, .inr rfl, hg.id, rfl⟩
      · rintro ⟨m, hm | rfl, hid, rfl⟩
        · exact absurd hid (hno m hm)
        · rfl
    · next hid =>
      rw [h.live]
      simp only [List.mem_append, List.mem_singleton]
      constructor
      · rintro ⟨m, hm, hm'⟩
        exact ⟨m, .inl hm, hm'⟩
      · rintro ⟨m, hm | rfl, hm'⟩
        · exact ⟨m, hm, hm'⟩
        · exact absurd (hg.id.symm.trans hm'.1) hid
  · exact h.freeing.trans (by rw [hg.queue])
  · have hperm : ((s.live ++ [l]) ++ s.freeing).Perm (l :: s.held) := by
      rw [List.append_assoc]
      exact List.perm_middle
    refine (hperm.map _).nodup_iff.mpr (List.nodup_cons.mpr ⟨fun hm => ?_, h.ids⟩)
    obtain ⟨m, hm, he⟩ := List.mem_map.mp hm
    have := h.next m hm
    have := hg.id
    omega
  · have hn := hg.next
    obtain rfl | hm := (hheld m).mp hm
    · have := hg.id
      dsimp only
      omega
    · have := h.next m hm
      dsimp only
      omega
  · obtain rfl | hm := (hheld m).mp hm
    · exact hg.leaf
    · exact hleaves (h.leaves m hm)
  · obtain rfl | hm := (hheld m).mp hm
    · exact hg.formed
    · exact (h.formed m hm).congr hs.width hs.height

theorem Inv.framed (h : s.Inv) (ha : a.Inv) (hs : SameSetup s.allocator a)
    (hids : a.allocationTypes = s.allocator.allocationTypes ∧
      a.allocationBoard = s.allocator.allocationBoard ∧ a.nextId = s.allocator.nextId ∧
      a.toFree = s.allocator.toFree)
    (hleaves : s.allocator.ledger.leaves ⊆ a.ledger.leaves) :
    ({ s with allocator := a } : Session).Inv := by
  obtain ⟨ht, hb, hn, hq⟩ := hids
  refine ⟨ha, fun id c => ?_, h.freeing.trans (by rw [hq]), h.ids,
    fun l hl => (h.next l hl).trans_eq hn.symm, fun l hl => hleaves (h.leaves l hl),
    fun l hl => (h.formed l hl).congr hs.width hs.height⟩
  have hc : a.claimOf id = s.allocator.claimOf id := by
    unfold claimOf
    rw [ht, hb]
  exact hc ▸ h.live id c

theorem filter_id_eq {ls : List Lease} (hn : (ls.map Lease.id).Nodup) {l : Lease} (hl : l ∈ ls) :
    ls.filter (fun m => m.id = l.id) = [l] := by
  induction ls with
  | nil => cases hl
  | cons m ls ih =>
    rw [List.map_cons, List.nodup_cons] at hn
    rcases List.mem_cons.mp hl with rfl | hl
    · rw [List.filter_cons_of_pos (by simp), List.filter_eq_nil_iff.mpr]
      intro m hm hid
      exact hn.1 (List.mem_map.mpr ⟨m, hm, by simpa using hid⟩)
    · rw [List.filter_cons_of_neg, ih hn.2 hl]
      intro hid
      exact hn.1 (List.mem_map.mpr ⟨l, hl, (of_decide_eq_true hid).symm⟩)

theorem Inv.freed (h : s.Inv) {l : Lease} (hl : l ∈ s.live) :
    ({ s with
      allocator := s.allocator.freed l.id l.claim
      live := s.live.filter (fun m => m.id ≠ l.id)
      freeing := s.freeing ++ s.live.filter (fun m => m.id = l.id) } : Session).Inv := by
  have hc : s.allocator.claimOf l.id = some l.claim := (h.live _ _).mpr ⟨l, hl, rfl, rfl⟩
  have hn := h.ids
  rw [held, List.map_append] at hn
  have hfil := filter_id_eq (List.Nodup.of_append_left hn) hl
  have hledger := ledger_freed (a := s.allocator) hc
  have hperm : (s.live.filter (fun m => m.id ≠ l.id) ++
      (s.freeing ++ s.live.filter (fun m => m.id = l.id))).Perm s.held := by
    have hp := List.filter_append_perm (fun m : Lease => decide (m.id ≠ l.id)) s.live
    have hnot : s.live.filter (fun m => !decide (m.id ≠ l.id)) =
        s.live.filter (fun m => m.id = l.id) := by simp
    rw [hnot] at hp
    refine List.Perm.trans ?_ (hp.append_right s.freeing)
    rw [List.append_assoc]
    exact List.perm_append_comm.append_left _
  refine ⟨h.allocator.freed hc, fun id c => ?_, ?_, ?_, fun m hm => ?_, fun m hm => ?_,
    fun m hm => ?_⟩
  · dsimp only
    rw [claimOf_freed]
    split
    · next hid =>
      subst hid
      simp only [List.mem_filter, decide_eq_true_eq, reduceCtorEq, false_iff]
      rintro ⟨m, ⟨-, hm⟩, hm', -⟩
      exact hm hm'
    · next hid =>
      rw [h.live]
      simp only [List.mem_filter, decide_eq_true_eq]
      constructor
      · rintro ⟨m, hm, rfl, hm'⟩
        exact ⟨m, ⟨hm, Ne.symm hid⟩, rfl, hm'⟩
      · rintro ⟨m, ⟨hm, -⟩, hm'⟩
        exact ⟨m, hm, hm'⟩
  · simp only [hfil, List.map_append, h.freeing, Allocator.freed]
    rfl
  · exact (hperm.map _).nodup_iff.mpr h.ids
  · exact h.next m (hperm.mem_iff.mp hm)
  · rw [hledger]
    exact h.leaves m (hperm.mem_iff.mp hm)
  · exact (h.formed m (hperm.mem_iff.mp hm)).congr rfl rfl

theorem swept_of_queue (s : Session) (h : a'.toFree = a.toFree) :
    s.swept a' = { s.swept a with allocator := a' } := by
  unfold swept
  rw [h]

/-- What a call does to a session. -/
inductive Ran (s : Session) : AllocatorCall → Except Error Unit → Session → Prop where
  | granted {r : Request} {k : ℕ} {b a : Allocator} {al : Allocation} {l : Lease}
      (hs : Swept s.allocator k b) (hb : b.Inv) (ho : Outcome b r (.ok (some al)) a)
      (hg : Granted b al a l) :
    Ran s (.alloc r) (.ok ()) { s.swept b with allocator := a, live := s.live ++ [l] }
  | nothing {r : Request} {k : ℕ} {b a : Allocator} {res : Except Error (Option Allocation)}
      (hs : Swept s.allocator k b) (hb : b.Inv) (ho : Outcome b r res a)
      (hn : ∀ al, res ≠ .ok (some al)) :
    Ran s (.alloc r) (res.map fun _ => ()) { s.swept b with allocator := a }
  | freed {l : Lease} (hl : l ∈ s.live) :
    Ran s (.free l.id) (.ok ()) { s with
      allocator := s.allocator.freed l.id l.claim
      live := s.live.filter (fun m => m.id ≠ l.id)
      freeing := s.freeing ++ s.live.filter (fun m => m.id = l.id) }
  | unknown {id : ℕ} (hid : ∀ l ∈ s.live, l.id ≠ id) : Ran s (.free id) (.error .keyError) s
  | checkFree {k : ℕ} {b : Allocator} (hs : Swept s.allocator k b) (hb : b.Inv) :
    Ran s .checkFree (.ok ()) (s.swept b)
  | setDeadBoards (deadBoards : Finset Board) :
    Ran s (.setDeadBoards deadBoards) (.ok ())
      { s with allocator := { s.allocator with deadBoards := deadBoards } }

theorem run_alloc (h : s.Inv) (r : Request)
    (hc : Careful s.allocator.toFree.length s.allocator) :
    Ran s (.alloc r) (s.run (.alloc r)).1 (s.run (.alloc r)).2 := by
  have hspec := alloc_spec h.allocator hc r
  unfold wp at hspec
  simp only [Session.run]
  generalize (Allocator.alloc r).run s.allocator = res at hspec ⊢
  obtain ⟨e | _ | al, a⟩ := res
  · obtain ⟨k, b, hs, hb, ho⟩ := hspec
    have hn : ∀ al, (.error e : Except Error (Option Allocation)) ≠ .ok (some al) := by simp
    dsimp only
    rw [swept_of_queue s (outcome_frame ho hn).2.2.2]
    exact .nothing hs hb ho hn
  · obtain ⟨k, b, hs, hb, ho⟩ := hspec
    have hn : ∀ al, (.ok none : Except Error (Option Allocation)) ≠ .ok (some al) := by simp
    dsimp only
    rw [swept_of_queue s (outcome_frame ho hn).2.2.2]
    exact .nothing hs hb ho hn
  · obtain ⟨k, b, hs, hb, ho⟩ := hspec
    obtain ⟨l, hg⟩ := outcome_granted hb ho
    dsimp only
    rw [swept_of_queue s hg.queue, hg.lease]
    exact .granted hs hb ho hg

theorem run_free (h : s.Inv) (id : ℕ) :
    Ran s (.free id) (s.run (.free id)).1 (s.run (.free id)).2 := by
  have hspec := free_spec h.allocator.books id
  unfold wp at hspec
  simp only [Session.run]
  generalize (Allocator.free id).run s.allocator = res at hspec ⊢
  obtain ⟨e | u, a⟩ := res
  · obtain ⟨rfl, rfl, hno⟩ := hspec
    refine .unknown fun l hl hid => ?_
    rw [(h.live id l.claim).mpr ⟨l, hl, hid, rfl⟩] at hno
    cases hno
  · obtain ⟨c, hc, rfl⟩ := hspec
    obtain ⟨l, hl, rfl, rfl⟩ := (h.live _ _).mp hc
    exact .freed hl

theorem run_checkFree (h : s.Inv) (hc : Careful s.allocator.toFree.length s.allocator) :
    Ran s .checkFree (s.run .checkFree).1 (s.run .checkFree).2 := by
  have hspec := checkFree_spec h.allocator hc
  unfold wp at hspec
  simp only [Session.run]
  generalize Allocator.checkFree.run s.allocator = res at hspec ⊢
  obtain ⟨e | u, a⟩ := res
  · exact hspec.elim
  · obtain ⟨ha, k, hs, -⟩ := hspec
    exact .checkFree hs ha

theorem run_spec (h : s.Inv) {c : AllocatorCall} (hc : s.Proper c) :
    Ran s c (s.run c).1 (s.run c).2 := by
  cases c with
  | alloc r => exact run_alloc h r hc.1
  | free id => exact run_free h id
  | checkFree => exact run_checkFree h hc
  | setDeadBoards d => exact .setDeadBoards d

theorem Inv.setDeadBoards (h : s.Inv) (deadBoards : Finset Board) :
    ({ s with allocator := { s.allocator with deadBoards := deadBoards } } : Session).Inv := by
  have ha := h.allocator
  exact ⟨⟨ha.tree, ha.root, ⟨ha.shape.full, ha.shape.spare⟩,
    ⟨ha.books.keys, ha.books.ids, ha.books.live, ha.books.queue, ha.books.apart⟩, ha.sound⟩,
    h.live, h.freeing, h.ids, h.next, h.leaves, fun l hl => (h.formed l hl).congr rfl rfl⟩

theorem Ran.inv_of_allocator {c : AllocatorCall} {res : Except Error Unit} {s' : Session}
    (h : s.Inv) (hr : Ran s c res s') (ha : s'.allocator.Inv) : s'.Inv := by
  cases hr with
  | granted hs hb ho hg => exact (h.swept hs hb).granted hg ha ho.sameSetup ho.leaves
  | nothing hs hb ho hn =>
    exact (h.swept hs hb).framed ha ho.sameSetup (outcome_frame ho hn) ho.leaves
  | freed hl => exact h.freed hl
  | unknown _ => exact h
  | checkFree hs hb => exact h.swept hs hb
  | setDeadBoards d => exact h.setDeadBoards d

theorem Ran.inv {c : AllocatorCall} {res : Except Error Unit} {s' : Session} (h : s.Inv)
    (hc : s.Proper c) (hr : Ran s c res s') : s'.Inv := by
  apply hr.inv_of_allocator h
  cases hr with
  | granted hs hb ho _ => exact ho.inv hb (hs.sameSetup.serves hc.2)
  | nothing hs hb ho _ => exact ho.inv hb (hs.sameSetup.serves hc.2)
  | freed hl => exact (h.freed hl).allocator
  | unknown _ => exact h.allocator
  | checkFree _ hb => exact hb
  | setDeadBoards d => exact (h.setDeadBoards d).allocator

theorem Inv.run (h : s.Inv) {c : AllocatorCall} (hc : s.Proper c) : (s.run c).2.Inv :=
  (run_spec h hc).inv h hc

/-- A new allocator of a machine of at least one triad. -/
structure Setup where
  width : ℤ
  height : ℤ
  width_pos : 1 ≤ width
  height_pos : 1 ≤ height
  deadBoards : Finset Board
  deadLinks : Finset BoardLink
  nextId : ℕ
  secondsBeforeFree : ℤ
  clock : ℕ → ℤ
  setPop : SetPop

def Setup.start (c : Setup) : Session where
  allocator := .new c.width c.height c.deadBoards c.deadLinks c.nextId c.secondsBeforeFree c.clock
    c.setPop
  live := []
  freeing := []
  released := []

/-- Any sequence of calls. -/
def system (c : Setup) : System Session AllocatorCall where
  init s := s = c.start
  step s call s' := s' = (s.run call).2

theorem reachable_run {c : Setup} {ok : Session → AllocatorCall → Prop}
    (hs : ((system c).restrict ok).Reachable s) (call : AllocatorCall) (hok : ok s call) :
    ((system c).restrict ok).Reachable (s.run call).2 := hs.next ⟨hok, rfl⟩

theorem reachable_runs {c : Setup} {ok : AllocatorCall → Prop} {calls : List AllocatorCall}
    (hs : ((system c).restrict fun _ => ok).Reachable s) (hok : ∀ call ∈ calls, ok call) :
    ((system c).restrict fun _ => ok).Reachable (s.runs calls) := by
  induction calls generalizing s with
  | nil => exact hs
  | cons call calls ih =>
    refine ih (reachable_run hs call (hok call (by simp))) fun d hd => hok d ?_
    exact List.mem_cons_of_mem _ hd

theorem inv_start (c : Setup) : c.start.Inv := by
  refine ⟨inv_new _ _ _ _ _ _ _ _ c.width_pos c.height_pos, fun id d => ?_, rfl, List.nodup_nil,
    ?_, ?_, ?_⟩
  · simp [Setup.start, Allocator.new, claimOf]
  · simp [held, Setup.start]
  · simp [held, Setup.start]
  · simp [held, Setup.start]

end Session

end SpallocServer
