import SpallocServer.Allocator.Exclusive
import SpallocServer.Allocator.Service
import SpallocServer.Allocator.Stock

namespace SpallocServer

open Foundation Prog

namespace PackTree

variable {σ : Type} {f : Option (Filter σ)} {r : Region} {al : Bool} {w h : ℤ} {s : σ}

theorem alloc_large (hr : w > r.width ∨ h > r.height) :
    alloc f w h (.leaf r al) s = (none, .leaf r al, s) := by
  unfold alloc
  rw [if_pos hr, ite_self]

theorem requestLeaf_outside {x y : ℤ} (hr : ¬r.contains x y) (n : ℕ) :
    requestLeaf x y n r al = (none, .leaf r al) := by
  cases n with
  | zero => rfl
  | succ n => rw [requestLeaf, if_pos hr]

theorem allocArea_empty (hr : r.width ≤ 0 ∨ r.height ≤ 0) (area : ℤ) (minRatio : Option ℚ) :
    (allocArea f area minRatio (.leaf r al) s).2 = (.leaf r al, s) ∧
      ∀ xywh, (allocArea f area minRatio (.leaf r al) s).1 ≠ .ok (some xywh) := by
  have hrect : AreaToRect.areaToRect area r.width r.height minRatio =
      .error (.valueError "Cannot get negative- or zero-sized allocations.") := by
    unfold AreaToRect.areaToRect
    rw [if_pos (.inr hr)]
  unfold allocArea
  rw [hrect]
  split
  · exact ⟨rfl, by simp⟩
  split
  · exact ⟨rfl, by simp⟩
  · exact ⟨rfl, by simp⟩

end PackTree

namespace Allocator

open Ledger

variable {a b : Allocator} {r : Request} {id : ℕ}

structure Barren (a : Allocator) : Prop where
  size : a.width < 1 ∨ a.height < 1
  tree : a.packTree = .leaf ⟨0, 0, a.width, a.height⟩ false
  single : a.singleBoardTriads = Dict.empty
  full : a.fullSingleBoardTriads = ∅
  types : a.allocationTypes = Dict.empty
  toFree : a.toFree = []

namespace Barren

theorem new {width height secondsBeforeFree : ℤ} {deadBoards : Finset Board}
    {deadLinks : Finset BoardLink} {nextId : ℕ} {clock : ℕ → ℤ} {setPop : SetPop}
    (hsize : width < 1 ∨ height < 1) :
    (Allocator.new width height deadBoards deadLinks nextId secondsBeforeFree clock
      setPop).Barren :=
  ⟨hsize, rfl, rfl, rfl, rfl, rfl⟩

theorem reconfigured (h : a.Barren) (deadBoards : Finset Board) (deadLinks : Finset BoardLink) :
    ({ a with deadBoards := deadBoards, deadLinks := deadLinks } : Allocator).Barren :=
  ⟨h.size, h.tree, h.single, h.full, h.types, h.toFree⟩

theorem resilient (h : a.Barren) : a.ledger.Resilient a.working := by
  intro p hp
  obtain hp | ⟨free, hp⟩ := hp
  · rw [h.full] at hp
    exact absurd hp (Finset.notMem_empty p)
  · rw [h.single] at hp
    cases hp

theorem available (h : a.Barren) (p : ℤ × ℤ) : a.available p = ∅ := by
  rw [Allocator.available, h.single]
  rfl

theorem spare (h : a.Barren) (x y z : Value) : a.spare x y z = none := by
  unfold Allocator.spare
  split
  · rw [h.single]
    rfl
  · split
    · rw [h.available, if_neg (Finset.notMem_empty _)]
    · rfl

theorem kept (h : a.Barren) {tree : PackTree}
    (ht : tree = .leaf ⟨0, 0, a.width, a.height⟩ false) : { a with packTree := tree } = a := by
  rw [ht, ← h.tree]

theorem checkFree (h : a.Barren) : wp checkFree (fun _ b => b = a) (fun _ _ => False) a := by
  simp only [Allocator.checkFree, wp_bind, wp_state, h.toFree, List.length_nil, checkFreeLoop,
    wp_pure]

theorem allocTriads (h : a.Barren) (width height : Value) (c : Constraints) :
    wp (allocTriads width height c) (fun res b => res = none ∧ b = a) (fun _ b => b = a) a := by
  simp only [Allocator.allocTriads, wp_bind, wp_state]
  split
  · exact ⟨rfl, rfl⟩
  rw [wp_bind]
  apply wp_ofExcept
  case herror => exact fun _ _ => rfl
  intro w _
  split
  · exact ⟨rfl, rfl⟩
  next hw =>
  rw [wp_bind]
  apply wp_ofExcept
  case herror => exact fun _ _ => rfl
  intro v _
  split
  · exact ⟨rfl, rfl⟩
  next hv =>
  have hlarge : w > a.width ∨ v > a.height := by
    have hsize := h.size
    omega
  rw [h.tree, PackTree.alloc_large hlarge, wp_bind, wp_update]
  exact ⟨rfl, h.kept rfl⟩

theorem allocBoards (h : a.Barren) (boards : Value) (c : Constraints) :
    wp (allocBoards boards c) (fun res b => res = none ∧ b = a) (fun _ b => b = a) a := by
  simp only [Allocator.allocBoards, wp_bind, wp_state]
  apply wp_ofExcept
  case herror => exact fun _ _ => rfl
  intro nt _
  obtain ⟨n, triads⟩ := nt
  dsimp only
  split
  · exact ⟨rfl, rfl⟩
  split
  · exact ⟨rfl, rfl⟩
  have hempty : a.width ≤ 0 ∨ a.height ≤ 0 := by
    have hsize := h.size
    omega
  have hnothing : (PackTree.allocArea (some (a.candidateFilter c (some n)).call) triads c.minRatio
      (.leaf ⟨0, 0, a.width, a.height⟩ false) none).2 =
        (.leaf ⟨0, 0, a.width, a.height⟩ false, none) ∧
      ∀ xywh, (PackTree.allocArea (some (a.candidateFilter c (some n)).call) triads c.minRatio
        (.leaf ⟨0, 0, a.width, a.height⟩ false) none).1 ≠ .ok (some xywh) :=
    PackTree.allocArea_empty hempty triads c.minRatio
  rw [h.tree]
  generalize PackTree.allocArea (some (a.candidateFilter c (some n)).call) triads c.minRatio
    (.leaf ⟨0, 0, a.width, a.height⟩ false) none = res at hnothing
  obtain ⟨htree, hnone⟩ := hnothing
  obtain ⟨xywh, tree, last⟩ := res
  obtain ⟨rfl, -⟩ := Prod.mk.inj htree
  rw [wp_bind, wp_update, h.kept rfl, wp_bind]
  apply wp_ofExcept
  · intro found hfound
    cases found with
    | none => exact ⟨rfl, rfl⟩
    | some xywh => exact absurd hfound (hnone xywh)
  · exact fun _ _ => rfl

theorem request (h : a.Barren) (x y : Value) :
    wp (request x y) (fun res b => res = none ∧ b = a) (fun _ b => b = a) a := by
  simp only [Allocator.request, wp_bind, wp_state, h.tree, PackTree.region]
  apply wp_ofExcept
  case herror => exact fun _ _ => rfl
  intro i _
  split
  · exact ⟨rfl, rfl⟩
  next hi =>
  rw [wp_bind]
  apply wp_ofExcept
  case herror => exact fun _ _ => rfl
  intro j _
  have houtside : ¬(⟨0, 0, a.width, a.height⟩ : Region).contains i j := by
    have hsize := h.size
    simp only [Region.contains, decide_eq_true_eq]
    omega
  rw [PackTree.request, PackTree.requestLeaf_outside houtside, wp_bind, wp_update]
  exact ⟨rfl, h.kept rfl⟩

theorem allocTriad (h : a.Barren) :
    wp allocTriad (fun res b => res = none ∧ b = a) (fun _ b => b = a) a := by
  have hlarge : 1 > (⟨0, 0, a.width, a.height⟩ : Region).width ∨
      1 > (⟨0, 0, a.width, a.height⟩ : Region).height := h.size
  simp only [Allocator.allocTriad, wp_bind, wp_state]
  rw [h.tree, PackTree.alloc_large hlarge, wp_update]
  exact ⟨rfl, h.kept rfl⟩

theorem allocBoard (h : a.Barren) (x y z : Value) (torus : Flag) (n : ℕ) :
    wp (allocBoard x y z torus n) (fun res b => res = none ∧ b = a) (fun _ b => b = a) a := by
  cases n with
  | zero => exact ⟨rfl, rfl⟩
  | succ n =>
    simp only [Allocator.allocBoard, wp_bind, wp_state, h.spare]
    split
    · rfl
    split
    · rfl
    split
    · exact ⟨rfl, rfl⟩
    have hopen : wp (if y ≠ .none then Allocator.request x y else Allocator.allocTriad)
        (fun res b => res = none ∧ b = a) (fun _ b => b = a) a := by
      split
      · exact h.request x y
      · exact h.allocTriad
    rw [wp_bind]
    apply hopen.mono _ fun _ _ he => he
    intro xy b hb
    obtain ⟨rfl, rfl⟩ := hb
    exact ⟨rfl, rfl⟩

theorem alloc (h : a.Barren) (r : Request) :
    wp (alloc r) (fun res b => res = none ∧ b = a) (fun _ b => b = a) a := by
  rw [alloc_eq, wp_bind]
  apply h.checkFree.mono _ fun _ _ hf => hf.elim
  intro _ b hb
  rw [hb]
  unfold allocate
  rw [wp_bind]
  apply wp_ofExcept
  case herror => exact fun _ _ => rfl
  intro type _
  cases type with
  | board => exact h.allocBoard r.x r.y r.z r.torus 2
  | boards =>
    dsimp only
    rw [wp_bind]
    apply wp_ofExcept
    case herror => exact fun _ _ => rfl
    exact fun nc _ => h.allocBoards nc.1 nc.2
  | triads =>
    dsimp only
    rw [wp_bind]
    apply wp_ofExcept
    case herror => exact fun _ _ => rfl
    exact fun whc _ => h.allocTriads whc.1 whc.2.1 whc.2.2

theorem free (h : a.Barren) (id : ℕ) : wp (free id) (fun _ _ => False) (fun _ b => b = a) a := by
  simp only [Allocator.free, wp_bind, wp_state, h.types]
  rfl

end Barren

abbrev Grants := ℕ → Finset Board → Finset BoardLink → Prop

/-- The boards and the links are those of a live lease, and the boards satisfy `K`. -/
structure Rented (K : Board → Prop) (live : List Lease) (id : ℕ) (boards : Finset Board)
    (periphery : Finset BoardLink) : Prop where
  lease : ∃ l ∈ live, l.id = id ∧ l.boards = boards ∧ l.periphery = periphery
  nonempty : boards.Nonempty
  works : ∀ d ∈ boards, K d
  links : ∀ l ∈ periphery, l.1 ∈ boards

/-- All that is granted is a live lease of the allocator, which is sound. -/
inductive Leased (K : Board → Prop) (G : Grants) (a : Allocator) : Prop
  | barren (barren : a.Barren) (none : ∀ id boards periphery, ¬G id boards periphery)
  | rented (robust : a.Robust) (stocked : Stocked K a) (live freeing : List Lease)
    (released : List (ToFree × ℤ)) (inv : Session.Inv ⟨a, live, freeing, released⟩)
    (given : ∀ id boards periphery, G id boards periphery → Rented K live id boards periphery)

variable {K K' : Board → Prop} {G G' : Grants} {boards boards' : Finset Board}
  {periphery periphery' : Finset BoardLink} {id' : ℕ}

theorem Rented.mono {live live' : List Lease} (h : Rented K live id boards periphery)
    (hK : ∀ d, K d → K' d) (hlive : ∀ l ∈ live, l.id = id → l ∈ live') :
    Rented K' live' id boards periphery := by
  obtain ⟨l, hl, hid, hrest⟩ := h.lease
  exact ⟨⟨l, hlive l hl hid, hid, hrest⟩, h.nonempty, fun d hd => hK d (h.works d hd), h.links⟩

namespace Leased

theorem mono (h : Leased K G a) (hK : ∀ d, K d → K' d)
    (hG : ∀ id boards periphery, G' id boards periphery → G id boards periphery) :
    Leased K' G' a := by
  cases h with
  | barren hb hnone => exact .barren hb fun id boards periphery hG' => hnone _ _ _ (hG _ _ _ hG')
  | rented hr hs live freeing released hi hg =>
    exact .rented hr (hs.mono hK) live freeing released hi fun id boards periphery hG' =>
      (hg _ _ _ (hG _ _ _ hG')).mono hK fun _ hl _ => hl

theorem given (h : Leased K G a) (hg : G id boards periphery) :
    boards.Nonempty ∧ (∀ d ∈ boards, K d) ∧ ∀ l ∈ periphery, l.1 ∈ boards := by
  cases h with
  | barren _ hnone => exact absurd hg (hnone _ _ _)
  | rented _ _ live _ _ _ hgiven =>
    have hr := hgiven _ _ _ hg
    exact ⟨hr.nonempty, hr.works, hr.links⟩

theorem resilient (h : Leased K G a) : a.ledger.Resilient a.working := by
  cases h with
  | barren hb _ => exact hb.resilient
  | rented hr _ _ _ _ _ _ => exact hr.resilient

theorem disjoint (h : Leased K G a) (hg : G id boards periphery) (hg' : G id' boards' periphery')
    (hne : id ≠ id') : Disjoint boards boards' := by
  cases h with
  | barren _ hnone => exact absurd hg (hnone _ _ _)
  | rented _ _ live freeing released hi hgiven =>
    obtain ⟨l, hl, rfl, rfl, -⟩ := (hgiven _ _ _ hg).lease
    obtain ⟨l', hl', rfl, rfl, -⟩ := (hgiven _ _ _ hg').lease
    have hlm : l ≠ l' := fun heq => hne (congrArg Lease.id heq)
    rw [Finset.disjoint_left]
    intro d hd hd'
    have hheld : l ∈ Session.held ⟨a, live, freeing, released⟩ := List.mem_append_left _ hl
    have hheld' : l' ∈ Session.held ⟨a, live, freeing, released⟩ := List.mem_append_left _ hl'
    exact hlm (List.inj_on_of_nodup_map hi.claims_nodup hheld hheld'
      (hi.claim_eq hheld hheld' hd hd'))

theorem new {width height secondsBeforeFree : ℤ} {deadBoards : Finset Board}
    {deadLinks : Finset BoardLink} {nextId : ℕ} {clock : ℕ → ℤ} {setPop : SetPop}
    (hworks : ∀ d, Coordinates.InMachine width height d → d ∉ deadBoards → K d) :
    Leased K (fun _ _ _ => False) (.new width height deadBoards deadLinks nextId secondsBeforeFree
      clock setPop) := by
  by_cases hsize : 1 ≤ width ∧ 1 ≤ height
  · exact .rented (robust_new hsize.1 hsize.2) (.new hsize.1 hsize.2 hworks) [] [] []
      (Session.inv_start ⟨width, height, hsize.1, hsize.2, deadBoards, deadLinks, nextId,
        secondsBeforeFree, clock, setPop⟩) fun _ _ _ => False.elim
  · have hsmall : width < 1 ∨ height < 1 := by omega
    exact .barren (.new hsmall) fun _ _ _ => id

theorem reconfigured (h : Leased K G a) {deadBoards : Finset Board} {deadLinks : Finset BoardLink}
    (hresilient :
      ({ a with deadBoards := deadBoards, deadLinks := deadLinks } : Allocator).ledger.Resilient
        ({ a with deadBoards := deadBoards, deadLinks := deadLinks } : Allocator).working)
    (hworks : ∀ d, Coordinates.InMachine a.width a.height d → d ∉ deadBoards → K d) :
    Leased K G { a with deadBoards := deadBoards, deadLinks := deadLinks } := by
  cases h with
  | barren hb hnone => exact .barren (hb.reconfigured deadBoards deadLinks) hnone
  | rented hr hs live freeing released hi hg =>
    have hinv := hr.inv.reconfigured deadBoards deadLinks
    refine .rented ⟨hr.unhurried.reconfigured deadBoards deadLinks, hresilient⟩ (hs.reconfigured deadLinks hworks) live freeing released ?_ hg
    exact ⟨hinv, hi.live, hi.freeing, hi.ids, hi.next, hi.leaves,
      fun l hl => (hi.formed l hl).congr rfl rfl⟩

theorem checkFree (h : Leased K G a) :
    wp checkFree (fun _ b => Leased K G b) (fun _ _ => False) a := by
  cases h with
  | barren hb hnone =>
    apply hb.checkFree.mono _ fun _ _ hf => hf
    intro _ b heq
    rw [heq]
    exact .barren hb hnone
  | rented hr hs live freeing released hi hg =>
    have hcareful := careful_of_guarded hr.inv hr.calm.guarded a.toFree.length
    apply ((checkFree_spec hr.inv hcareful).and ((checkFree_robust hr).and
      (checkFree_stocked hs))).mono _ fun _ _ hf => hf.1
    intro _ b hb
    obtain ⟨⟨hinv, k, hswept, -⟩, hrobust, hstocked⟩ := hb
    have hsession := hi.swept hswept hinv
    exact .rented hrobust hstocked live _ _ hsession hg

theorem alloc (h : Leased K G a) (hr : r.Good) :
    wp (alloc r) (fun res b =>
      match res with
      | none => Leased K G b
      | some al => Leased K (fun id boards periphery => G id boards periphery ∨
          id = al.id ∧ boards = al.boards ∧ periphery = al.periphery) b)
      (fun _ b => Leased K G b) a := by
  cases h with
  | barren hb hnone =>
    apply (hb.alloc r).mono
    · intro res b hres
      obtain ⟨rfl, rfl⟩ := hres
      exact .barren hb hnone
    · intro _ b heq
      rw [heq]
      exact .barren hb hnone
  | rented hrobust hs live freeing released hi hg =>
    have hcareful := careful_of_guarded hrobust.inv hrobust.calm.guarded a.toFree.length
    apply ((alloc_spec hrobust.inv hcareful r).and ((alloc_robust hrobust hr).and
      (alloc_stocked hs r))).mono _ fun _ _ hf => hf.2.1.elim
    intro res b hres
    obtain ⟨⟨k, c, hswept, hc, ho⟩, hrobust', hstocked, hprovides⟩ := hres
    have hsession := hi.swept hswept hc
    have hb : b.Inv := ho.inv hc (.inl (good_sane hr))
    cases res with
    | none =>
      exact .rented hrobust' hstocked live _ _ (hsession.framed hb ho.sameSetup
        (Session.outcome_frame ho (by simp)) ho.leaves) hg
    | some al =>
      obtain ⟨l, hl⟩ := Session.outcome_granted hc ho
      obtain ⟨hne, hworks, hlinks⟩ := hprovides al rfl
      have hal : l.allocation = al := congrArg Lease.allocation hl.lease.symm
      refine .rented hrobust' hstocked (live ++ [l]) _ _
        (hsession.granted hl hb ho.sameSetup ho.leaves) fun id boards periphery hG => ?_
      obtain hG | ⟨rfl, rfl, rfl⟩ := hG
      · exact (hg _ _ _ hG).mono (fun _ hd => hd) fun m hm _ => List.mem_append_left _ hm
      · refine ⟨⟨l, List.mem_append_right _ (List.mem_singleton_self l), ?_, ?_, ?_⟩, hne, hworks,
          hlinks⟩
        all_goals rw [← hal]

theorem free (h : Leased K G a) (hrun : (free id).run a = (.ok (), b)) :
    Leased K (fun i boards periphery => G i boards periphery ∧ i ≠ id) b := by
  cases h with
  | barren hb hnone => exact (wp_of_eq_ok (hb.free id) hrun).elim
  | rented hr hs live freeing released hi hg =>
    obtain ⟨claim, hclaim, rfl⟩ := wp_of_eq_ok (free_spec hr.inv.books id) hrun
    obtain ⟨l, hl, rfl, rfl⟩ := (hi.live id claim).mp hclaim
    have htype : (a.allocationTypes.get? l.id).isSome := by
      by_contra hnone
      rw [claimOf, Option.not_isSome_iff_eq_none.mp hnone] at hclaim
      cases hclaim
    have hrobust := wp_of_eq_ok (free_robust hr htype) hrun
    have hstocked := wp_of_eq_ok (free_stocked hs l.id) hrun
    refine .rented hrobust hstocked _ _ _ (hi.freed hl) fun i boards periphery hG => ?_
    apply (hg _ _ _ hG.1).mono fun _ hd => hd
    intro m hm hmid
    rw [List.mem_filter, decide_eq_true_eq, hmid]
    exact ⟨hm, hG.2⟩

end Leased

end Allocator

end SpallocServer
