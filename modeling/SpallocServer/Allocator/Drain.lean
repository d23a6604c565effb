import Mathlib.Data.Multiset.UnionInter
import SpallocServer.Allocator.Exclusive

namespace SpallocServer

open Foundation Allocator Ledger

namespace Session

variable {s s' : Session} {c : Setup} {call : AllocatorCall}

/-- The rectangles of the held allocations of triads. -/
def blocks (s : Session) : List Region :=
  (s.held.filter fun l => l.claim.1 = .triads).map Lease.rectangle

def singles (s : Session) (p : ℤ × ℤ) : Finset ℤ :=
  ({0, 1, 2} : Finset ℤ).filter fun z =>
    ∃ l ∈ s.held, l.claim.1 = .board ∧ l.boards = {(p.1, p.2, z)}

/-- Every allocated triad is accounted for. -/
structure Accounted (s : Session) : Prop where
  leaves : (s.blocks : Multiset Region) + (s.allocator.singleBoardTriads.keys.map cell : List _) +
    s.allocator.fullSingleBoardTriads.val.map cell = (s.allocator.packTree.allocated : List _)
  nodup : s.allocator.packTree.allocated.Nodup
  parts : ∀ p, p ∈ s.allocator.singleBoardTriads.keys ∨ p ∈ s.allocator.fullSingleBoardTriads →
    Disjoint (s.allocator.available p) (s.singles p) ∧
      s.allocator.available p ∪ s.singles p = s.allocator.working p
  keys : ∀ p ∈ s.allocator.singleBoardTriads.keys,
    (s.allocator.available p).Nonempty ∧ s.allocator.available p ≠ s.allocator.working p
  full : ∀ p ∈ s.allocator.fullSingleBoardTriads,
    p ∉ s.allocator.singleBoardTriads.keys ∧ s.allocator.available p = ∅

/-- A call with valid arguments. -/
def Admissible (s : Session) : AllocatorCall → Prop
  | .alloc r => r.Good
  | .free id => ∃ l ∈ s.live, l.id = id
  | .checkFree => True
  | .setDeadBoards _ => False

theorem Inv.outstanding_iff (h : s.Inv) (d : Claim) :
    s.allocator.Outstanding d ↔ ∃ l ∈ s.held, l.claim = d := by
  constructor
  · rintro (⟨id, hid⟩ | hd)
    · obtain ⟨l, hl, -, hc⟩ := (h.live id d).mp hid
      exact ⟨l, List.mem_append_left _ hl, hc⟩
    · rw [← h.freeing] at hd
      obtain ⟨l, hl, hc⟩ := List.mem_map.mp hd
      exact ⟨l, List.mem_append_right _ hl, hc⟩
  · rintro ⟨l, hl, rfl⟩
    exact h.claim_outstanding hl

theorem Inv.mem_singles (h : s.Inv) {p : ℤ × ℤ} {z : ℤ} :
    z ∈ s.singles p ↔ s.allocator.Outstanding (single p z) := by
  rw [h.outstanding_iff, singles, Finset.mem_filter]
  constructor
  · rintro ⟨-, l, hl, hc, hb⟩
    refine ⟨l, hl, ?_⟩
    rcases (h.formed l hl).kind with hk | ⟨q, z', hk, -, hb'⟩
    · rw [hk] at hc
      cases hc
    · have he := Finset.singleton_injective (hb.symm.trans hb')
      simp only [Prod.mk.injEq] at he
      rw [hk, single, single, he.1, he.2.1, he.2.2]
  · rintro ⟨l, hl, hc⟩
    have hout := h.claim_outstanding hl
    rw [hc] at hout
    obtain ⟨-, hz, -⟩ := h.allocator.sound.board p z hout
    refine ⟨?_, l, hl, by rw [hc]; rfl, ?_⟩
    · simp only [Finset.mem_insert, Finset.mem_singleton]
      omega
    · rcases (h.formed l hl).kind with hk | ⟨q, z', hk, -, hb⟩
      · rw [hc] at hk
        cases (Prod.mk.inj hk).1
      · obtain ⟨rfl, rfl⟩ := single_injective (hc.symm.trans hk)
        exact hb

theorem Inv.mem_blocks (h : s.Inv) {r : Region} :
    r ∈ s.blocks ↔ r ∈ s.allocator.packTree.allocated ∧ (r.x, r.y) ∉ s.allocator.ledger.opened := by
  have hs := h.allocator.sound
  simp only [blocks, List.mem_map, List.mem_filter, decide_eq_true_eq]
  constructor
  · rintro ⟨l, ⟨hl, ht⟩, rfl⟩
    refine ⟨h.leaves l hl, ?_⟩
    rcases (h.formed l hl).kind with hk | ⟨q, z', hk, -, -⟩
    · have hout := h.claim_outstanding hl
      rw [hk] at hout
      exact (hs.block_leaf hout).1
    · rw [hk] at ht
      cases ht
  · rintro ⟨hr, hno⟩
    have hc : s.allocator.Outstanding (block r) := (hs.leaf r hr).resolve_left hno
    obtain ⟨l, hl, hlc⟩ := (h.outstanding_iff _).mp hc
    refine ⟨l, ⟨hl, by rw [hlc]; rfl⟩, ?_⟩
    rcases (h.formed l hl).kind with hk | ⟨q, z', hk, -, -⟩
    · rw [hlc] at hk
      simp only [block, Prod.mk.injEq, true_and] at hk
      exact (hs.corner hr (h.leaves l hl) hk.1 hk.2.1).symm
    · rw [hlc] at hk
      cases (Prod.mk.inj hk).1

theorem Inv.blocks_nodup (h : s.Inv) : s.blocks.Nodup := by
  have hn := h.claims_nodup
  refine (h.ids.of_map.filter _).map_on fun l hl m hm he => ?_
  simp only [List.mem_filter, decide_eq_true_eq] at hl hm
  refine List.inj_on_of_nodup_map hn hl.1 hm.1 ?_
  rcases (h.formed l hl.1).kind with hkl | ⟨q, z, hkl, -, -⟩
  · rcases (h.formed m hm.1).kind with hkm | ⟨q, z, hkm, -, -⟩
    · rw [hkl, hkm, he]
    · rw [hkm] at hm
      cases hm.2
  · rw [hkl] at hl
    cases hl.2

theorem mem_opened_iff {a : Allocator} {p : ℤ × ℤ} :
    p ∈ a.ledger.opened ↔ p ∈ a.singleBoardTriads.keys ∨ p ∈ a.fullSingleBoardTriads := by
  rw [mem_opened, Dict.mem_keys, or_comm]

theorem Inv.full_apart (h : s.Inv) : ∀ p ∈ s.allocator.fullSingleBoardTriads,
    p ∉ s.allocator.singleBoardTriads.keys ∧ s.allocator.available p = ∅ := fun p hp =>
  ⟨Dict.get?_eq_none.mp (h.allocator.shape.full p hp), available_full h.allocator.shape hp⟩

theorem Inv.leaves_eq (h : s.Inv) :
    (s.blocks : Multiset Region) + (s.allocator.singleBoardTriads.keys.map cell : List _) +
      s.allocator.fullSingleBoardTriads.val.map cell =
        (s.allocator.packTree.allocated : List _) := by
  have hcell : Function.Injective cell := fun _ _ => cell_injective
  have hkeys : (s.allocator.singleBoardTriads.keys.map cell).Nodup :=
    s.allocator.singleBoardTriads.nodup.map hcell
  have hfulls : (s.allocator.fullSingleBoardTriads.val.map cell).Nodup :=
    s.allocator.fullSingleBoardTriads.nodup.map hcell
  have hnodup := h.allocator.tree.allocated_nodup
  refine (Multiset.Nodup.ext ?_ (Multiset.coe_nodup.mpr hnodup)).mpr fun r => ?_
  · rw [Multiset.nodup_add, Multiset.nodup_add, Multiset.coe_nodup, Multiset.coe_nodup,
      Multiset.disjoint_left, Multiset.disjoint_left]
    refine ⟨⟨h.blocks_nodup, hkeys, fun hb hk => ?_⟩, hfulls, fun hb hf => ?_⟩
    · obtain ⟨p, hp, rfl⟩ := List.mem_map.mp (Multiset.mem_coe.mp hk)
      exact (h.mem_blocks.mp hb).2 (mem_opened_iff.mpr (.inl hp))
    · obtain ⟨p, hp, rfl⟩ := Multiset.mem_map.mp hf
      rcases Multiset.mem_add.mp hb with hb | hb
      · exact (h.mem_blocks.mp hb).2 (mem_opened_iff.mpr (.inr hp))
      · obtain ⟨q, hq, he⟩ := List.mem_map.mp (Multiset.mem_coe.mp hb)
        obtain rfl := hcell he
        exact (h.full_apart q hp).1 hq
  · simp only [Multiset.mem_add, Multiset.mem_coe, List.mem_map, Multiset.mem_map,
      Finset.mem_val, h.mem_blocks, mem_opened_iff]
    constructor
    · rintro ((⟨hr, -⟩ | ⟨p, hp, rfl⟩) | ⟨p, hp, rfl⟩)
      · exact hr
      · exact h.allocator.sound.cell p (mem_opened_iff.mpr (.inl hp))
      · exact h.allocator.sound.cell p (mem_opened_iff.mpr (.inr hp))
    · intro hr
      by_cases ho : (r.x, r.y) ∈ s.allocator.ledger.opened
      · have hrc := h.allocator.sound.eq_cell hr ho
        rcases mem_opened_iff.mp ho with hk | hf
        · exact .inl (.inr ⟨_, hk, hrc.symm⟩)
        · exact .inr ⟨_, hf, hrc.symm⟩
      · exact .inl (.inl ⟨hr, mem_opened_iff.not.mp ho⟩)

theorem Stable.accounted (h : Stable c s) : s.Accounted := by
  have hi := h.inv
  have hs := hi.allocator.sound
  refine ⟨hi.leaves_eq, hi.allocator.tree.allocated_nodup, fun p hp => ⟨?_, ?_⟩,
    fun p hp => ⟨?_, ?_⟩, hi.full_apart⟩
  · rw [Finset.disjoint_left]
    exact fun z hz hz' => (hs.board p z (hi.mem_singles.mp hz')).2.2 hz
  · ext z
    rw [Finset.mem_union, hi.mem_singles]
    exact h.settled.exact p (mem_opened_iff.mpr hp) z
  · obtain ⟨free, hf⟩ := Dict.mem_keys.mp hp
    rw [available, hf]
    exact hi.allocator.shape.spare p free hf
  · have hp' := mem_opened_iff.mpr (.inl hp)
    obtain ⟨z, hz⟩ := h.settled.occupied p hp'
    have hw := (h.settled.exact p hp' z).mp (.inr hz)
    intro he
    rw [← he] at hw
    exact (hs.board p z hz).2.2 hw

theorem Inv.outcome_ok {a a' : Allocator} {r : Request} {e : Error} (h : a.Inv) (hr : r.Good) :
    ¬Outcome a r (.error e) a' := by
  intro ho
  cases ho with
  | refused hg _ => exact hg hr
  | starved hs => exact absurd (h.shape.spare _ _ hs) Finset.not_nonempty_empty

theorem Admissible.steady (h : s.Admissible call) : call.Steady := by
  cases call with
  | alloc r => exact good_sane h
  | free id => trivial
  | checkFree => trivial
  | setDeadBoards d => exact h.elim

theorem Stable.run_ok (h : Stable c s) (hc : s.Admissible call) : (s.run call).1 = .ok () := by
  have hr := run_spec h.inv (h.proper hc.steady)
  generalize s.run call = res at hr ⊢
  obtain ⟨res, s'⟩ := res
  cases hr with
  | granted _ _ _ _ => rfl
  | @nothing r k b a res hs hb ho hn =>
    cases res with
    | error e => exact absurd ho (Inv.outcome_ok hb hc)
    | ok al => rfl
  | freed _ => rfl
  | unknown hid =>
    obtain ⟨l, hl, he⟩ := hc
    exact absurd he (hid l hl)
  | checkFree _ _ => rfl
  | setDeadBoards d => rfl

theorem Inv.drained (h : s.Inv) (hocc : s.allocator.ledger.Occupied) (hn : s.held = []) :
    s.allocator.packTree = PackTree.new 0 0 s.allocator.width s.allocator.height ∧
      s.allocator.singleBoardTriads = Dict.empty ∧ s.allocator.fullSingleBoardTriads = ∅ := by
  have hno (d : Claim) : ¬s.allocator.Outstanding d := by
    rw [h.outstanding_iff, hn]
    rintro ⟨l, hl, -⟩
    cases hl
  have hopened (p : ℤ × ℤ) : p ∉ s.allocator.ledger.opened := by
    intro hp
    obtain ⟨z, hz⟩ := hocc p hp
    exact hno _ hz
  have hleaf : s.allocator.packTree.allocated = [] := by
    refine List.eq_nil_iff_forall_not_mem.mpr fun r hr => ?_
    rcases h.allocator.sound.leaf r hr with hp | hb
    · exact hopened _ hp
    · exact hno _ hb
  refine ⟨?_, ?_, ?_⟩
  · rw [h.allocator.tree.eq_new hleaf, h.allocator.root]
    rfl
  · refine Dict.eq_empty_of_get? fun p => ?_
    rw [Dict.get?_eq_none]
    exact fun hp => hopened p (mem_opened_iff.mpr (.inl hp))
  · exact Finset.eq_empty_of_forall_notMem fun p hp => hopened p (mem_opened_iff.mpr (.inr hp))

theorem emptied_of_late {a a' : Allocator} {n : ℕ} (hs : Swept a n a')
    (hlate : ∀ k e, a.toFree[k]? = some e →
      a.secondsBeforeFree * 1000000 ≤ a.clock (a.reads + k) - e.time) : a'.toFree = [] := by
  cases hs with
  | empty _ hq => exact hq
  | @waiting b e rest hx hq he =>
    have hsetup := hx.sameSetup
    obtain ⟨hdrop, -, hreads, -⟩ := hx.queue
    have hget : a.toFree[n]? = some e := by
      rw [← List.head?_drop, ← hdrop, hq]
      rfl
    have hl := hlate n e hget
    unfold Early at he
    rw [hsetup.clock, hreads, hsetup.secondsBeforeFree] at he
    omega

/-- The tree and the tables are as in a new allocator. -/
def Drained (c : Setup) (s : Session) : Prop :=
  s.allocator.packTree = PackTree.new 0 0 c.width c.height ∧
    s.allocator.singleBoardTriads = Dict.empty ∧ s.allocator.fullSingleBoardTriads = ∅

/-- The delays of all waiting entries have passed when the clock is read for them. -/
def Late (c : Setup) (s : Session) : Prop :=
  ∀ k e, s.allocator.toFree[k]? = some e →
    c.secondsBeforeFree * 1000000 ≤ s.allocator.clock (s.allocator.reads + k) - e.time

theorem Stable.drained (h : Stable c s) (hn : s.held = []) : s.Drained c := by
  have hd := h.inv.drained h.settled.occupied hn
  rwa [h.setup.width, h.setup.height] at hd

theorem Ran.of_checkFree {res : Except Error Unit} (hr : Ran s .checkFree res s') :
    s'.live = s.live ∧ ∃ k, Swept s.allocator k s'.allocator := by
  cases hr with
  | checkFree hs _ => exact ⟨rfl, _, hs⟩

theorem Ran.emptied {res : Except Error Unit} (hr : Ran s .checkFree res s') (hi : s'.Inv)
    (hlive : s.live = [])
    (hlate : ∀ k e, s.allocator.toFree[k]? = some e →
      s.allocator.secondsBeforeFree * 1000000 ≤
        s.allocator.clock (s.allocator.reads + k) - e.time) : s'.held = [] := by
  obtain ⟨hlive', k, hs⟩ := hr.of_checkFree
  have hfreeing : s'.freeing.map Lease.claim = [] := by
    rw [hi.freeing, emptied_of_late hs hlate, List.map_nil]
  rw [held, hlive', hlive, List.map_eq_nil_iff.mp hfreeing, List.append_nil]

theorem Stable.checkFree (h : Stable c s) (hlive : s.live = []) (hlate : s.Late c) :
    (s.run .checkFree).2.held = [] ∧ (s.run .checkFree).2.Drained c := by
  have hsteady : AllocatorCall.checkFree.Steady := trivial
  have hr := run_spec h.inv (h.proper hsteady)
  have hst := hr.stable h hsteady
  have hheld : (s.run .checkFree).2.held = [] := by
    apply hr.emptied hst.inv hlive
    rwa [h.setup.secondsBeforeFree]
  exact ⟨hheld, hst.drained hheld⟩

/-- No admissible call raises, the books balance, and once everything is given back and
released the tree and the tables are as at the start. -/
theorem accounted_drained (c : Setup) (h : (steadySystem c).Reachable s) :
    (∀ call, s.Admissible call → (s.run call).1 = .ok ()) ∧ s.Accounted ∧
      (s.held = [] → s.Drained c) ∧
      (s.live = [] → s.Late c →
        (s.run .checkFree).2.held = [] ∧ (s.run .checkFree).2.Drained c) := by
  have hs := reachable_stable h
  exact ⟨fun call => hs.run_ok, hs.accounted, hs.drained, hs.checkFree⟩

theorem accounted_drained_twoBoards :
    (oneTriad.start.runs twoBoards).allocator.packTree.allocated = [⟨0, 0, 1, 1⟩] ∧
      (oneTriad.start.runs twoBoards).Accounted :=
  ⟨by decide +kernel, (accounted_drained oneTriad reachable_twoBoards).2.1⟩

end Session

end SpallocServer
