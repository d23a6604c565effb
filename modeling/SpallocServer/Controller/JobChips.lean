import SpallocServer.Controller.Queries

namespace SpallocServer

open Foundation Prog Coordinates

namespace Coordinates

theorem vector_step {z : ℤ} (h : 0 ≤ z ∧ z < 3) (link : Links) :
    (-1 ≤ (vector z link).1 ∧ (vector z link).1 ≤ 1) ∧
      -1 ≤ (vector z link).2.1 ∧ (vector z link).2.1 ≤ 1 := by
  obtain rfl | rfl | rfl := z_cases h <;> cases link <;> decide

theorem step_wraps {n a d : ℤ} (ha : 0 ≤ a ∧ a < n) (hd : -1 ≤ d ∧ d ≤ 1)
    (hwrap : a + d ≠ (a + d) % n) :
    a = 0 ∧ (a + d) % n = n - 1 ∨ a = n - 1 ∧ (a + d) % n = 0 := by
  by_cases hlow : a + d < 0
  · left
    have hmod : (a + d) % n = (a + d + n) % n := (Int.add_emod_right ..).symm
    rw [hmod, Int.emod_eq_of_lt (by omega) (by omega)]
    omega
  by_cases hhigh : a + d < n
  · exact absurd (Int.emod_eq_of_lt (by omega) hhigh).symm hwrap
  · right
    have hmod : a + d = n := by omega
    rw [hmod, Int.emod_self]
    omega

end Coordinates

namespace CandidateFilter

variable {f : CandidateFilter} {x y w h : ℤ} {s : Option Candidate} {last : Candidate}

theorem call_torus (hcall : f.call x y w h s = (true, some last)) :
    last.torus = (f.classifyLinks last.boards).wrapAroundType := by
  unfold call at hcall
  dsimp only at hcall
  split at hcall
  · cases hcall
  split at hcall
  · cases hcall
  split at hcall
  · cases hcall
  · cases hcall
    rfl

theorem torus_edges (hcall : f.call x y w h s = (true, some last))
    (hin : ∀ b ∈ last.boards, InMachine f.width f.height b) :
    (last.torus.x = true →
        (∃ b ∈ last.boards, b.1 = 0) ∧ ∃ b ∈ last.boards, b.1 = f.width - 1) ∧
      (last.torus.y = true →
        (∃ b ∈ last.boards, b.2.1 = 0) ∧ ∃ b ∈ last.boards, b.2.1 = f.height - 1) := by
  rw [call_torus hcall]
  simp only [classifyLinks, decide_eq_true_eq, Finset.mem_filter, Finset.mem_product]
  constructor
  · intro ⟨⟨b, link⟩, ⟨⟨hb, _⟩, hfar⟩, hwrap⟩
    dsimp only at hb
    have hstep := step_wraps (hin b hb).x (vector_step (hin b hb).z link).1
      (of_decide_eq_true hwrap)
    obtain ⟨h0, h1⟩ | ⟨h0, h1⟩ := hstep
    · exact ⟨⟨b, hb, h0⟩, _, hfar, h1⟩
    · exact ⟨⟨_, hfar, h1⟩, b, hb, h0⟩
  · intro ⟨⟨b, link⟩, ⟨⟨hb, _⟩, hfar⟩, hwrap⟩
    dsimp only at hb
    have hstep := step_wraps (hin b hb).y (vector_step (hin b hb).z link).2
      (of_decide_eq_true hwrap)
    obtain ⟨h0, h1⟩ | ⟨h0, h1⟩ := hstep
    · exact ⟨⟨b, hb, h0⟩, _, hfar, h1⟩
    · exact ⟨⟨_, hfar, h1⟩, b, hb, h0⟩

end CandidateFilter

namespace Controller

variable {g : Geometry} {c c' : Controller} {machine : Configuration.Machine} {job : Job}
  {boards : Finset Board} {torus : WrapAround} {b o top : Board} {p : ℤ × ℤ}

theorem inMachine_of_located (h : (machine.boardLocations.get? b).isSome) :
    InMachine machine.width machine.height b := by
  obtain ⟨_, hget⟩ := Option.isSome_iff_exists.mp h
  exact inMachine_of_get hget

/-- A single board, or a candidate that has a board in the top right triad of its bounding box. -/
inductive Delivered (machine : Configuration.Machine) (boards : Finset Board)
    (torus : WrapAround) : Prop
  | board (b : Board) (h : boards = {b})
  | candidate (f : CandidateFilter) (x y w h : ℤ) (s : Option Candidate)
    (periphery : Finset BoardLink) (hwidth : f.width = machine.width)
    (hheight : f.height = machine.height)
    (hcall : f.call x y w h s = (true, some ⟨boards, periphery, torus⟩))
    (hcorner : ∃ t ∈ boards, ∀ b ∈ boards, b.1 ≤ t.1 ∧ b.2.1 ≤ t.2.1)

structure Allotted (machine : Configuration.Machine) (job : Job) (boards : Finset Board) :
    Prop where
  told : job.boards = some boards
  located : ∀ b ∈ boards, (machine.boardLocations.get? b).isSome
  size : ∃ torus origin top, job.torus = some torus ∧ Delivered machine boards torus ∧
    leastBoard boards = .ok origin ∧ greatestBoard boards = .ok top ∧
    job.width = some (dimensions origin top boards torus).1 ∧
    job.height = some (dimensions origin top boards torus).2

theorem allotted_of_run {id : ℕ} {name : String} {periphery : Finset BoardLink}
    (hrun : (onAllocate id name boards periphery torus).run c = (.ok (), c'))
    (hget : c.machines.get? name = some machine)
    (hlocated : ∀ b ∈ boards, (machine.boardLocations.get? b).isSome)
    (hd : Delivered machine boards torus) :
    (c'.job id).allocatedMachine = some machine ∧ Allotted machine (c'.job id) boards := by
  have hallocate : wp (onAllocate id name boards periphery torus)
      (fun _ c' => (c'.job id).allocatedMachine = some machine ∧
        Allotted machine (c'.job id) boards) (fun _ _ => True) c := by
    apply onAllocate_wp
    · exact fun _ => trivial
    · exact fun _ => trivial
    · exact fun _ _ _ _ _ => trivial
    · exact fun _ _ _ _ _ => trivial
    · exact fun _ _ _ _ _ _ _ _ _ => trivial
    intro machine' origin top connections c'' hl ha
    obtain rfl := Option.some.inj (hget.symm.trans hl.registered)
    apply (setJobPowerAndLinks_field (fun job => (job.placement, job.size, job.torus))
      fun _ _ _ _ => rfl).mono _ fun _ _ _ => trivial
    intro _ c' hsame
    obtain ⟨hp, hs, ht⟩ : (c'.job id).placement = (c''.job id).placement ∧
        (c'.job id).size = (c''.job id).size ∧ (c'.job id).torus = (c''.job id).torus := by
      have hid := hsame id
      simp only [Prod.mk.injEq] at hid
      exact hid
    refine ⟨(allocatedMachine_of_placement hp).trans ha.allocatedMachine,
      (boards_of_placement hp).trans ha.boards, hlocated, torus, origin, top, ht.trans ha.torus, hd,
      hl.least, hl.greatest, ?_, ?_⟩
    · exact (congrArg Prod.fst hs).trans ha.size.1
    · exact (congrArg Prod.snd hs).trans ha.size.2
  have hallotted := wp_of_eq_ok hallocate hrun
  exact hallotted

/-- Several boards that have a corner and a top right triad, which are the edges of the machine
where the boards wrap around. -/
structure Spans (machine : Configuration.Machine) (boards : Finset Board) (torus : WrapAround)
    (o t : Board) : Prop where
  bottom : o.2.2 = 0
  top : t ∈ boards
  x : ∀ b ∈ boards, b.1 ≤ t.1
  y : ∀ b ∈ boards, b.2.1 ≤ t.2.1
  torusX : torus.x = true → t.1 - o.1 + 1 = machine.width
  torusY : torus.y = true → t.2.1 - o.2.1 + 1 = machine.height

theorem Delivered.cornered (h : Delivered machine boards torus)
    (hin : ∀ b ∈ boards, InMachine machine.width machine.height b) :
    ∃ o, Cornered boards o ∧ (boards = {o} ∨ ∃ t, Spans machine boards torus o t) := by
  obtain ⟨b, rfl⟩ | ⟨f, x, y, w, h, s, periphery, hwidth, hheight, hcall, t, ht, htop⟩ := h
  · exact ⟨b, cornered_singleton b, .inl rfl⟩
  obtain ⟨_, hlast, hne⟩ := CandidateFilter.call_spec hcall
  obtain ⟨hboards, -, -⟩ := Candidate.mk.inj (Option.some.inj hlast)
  rw [← hboards] at hne
  have ho : Cornered boards (x, y, 0) := by
    rw [hboards] at hne ⊢
    exact CandidateFilter.cornered_enumerateBoards hne
  obtain ⟨hx, hy⟩ := CandidateFilter.torus_edges hcall (by rwa [hwidth, hheight])
  refine ⟨_, ho, .inr ⟨t, rfl, ht, fun b hb => (htop b hb).1, fun b hb => (htop b hb).2,
    fun htorus => ?_, fun htorus => ?_⟩⟩
  · obtain ⟨⟨b, hb, hleft⟩, d, hd, hright⟩ := hx htorus
    have hb' := ho.x b hb
    have ho' := (hin _ ho.mem).x
    have hd' := (htop d hd).1
    have ht' := (hin t ht).x
    omega
  · obtain ⟨⟨b, hb, hlow⟩, d, hd, hhigh⟩ := hy htorus
    have hb' := ho.y b hb
    have ho' := (hin _ ho.mem).y
    have hd' := (htop d hd).2
    have ht' := (hin t ht).y
    omega

theorem lowest_eq (h : Cornered boards o) : lowest boards = .ok o := by
  have hne : boards.Nonempty := ⟨o, h.mem⟩
  have hmin (f : Board → ℤ) (hf : ∀ b ∈ boards, f o ≤ f b) :
      (boards.image f).min' (hne.image f) = f o := by
    apply le_antisymm
    · exact Finset.min'_le _ _ (Finset.mem_image_of_mem f h.mem)
    · apply Finset.le_min'
      intro n hn
      obtain ⟨b, hb, rfl⟩ := Finset.mem_image.mp hn
      exact hf b hb
  unfold lowest
  rw [dif_pos hne, hmin _ h.x, hmin _ h.y, hmin _ fun b hb => (h.z b hb).1]

theorem chip_add_corner (h : o.2.2 = 0 ∨ b = o) :
    (chip o b).1 + (corner o).1 = (corner b).1 ∧ (chip o b).2 + (corner o).2 = (corner b).2 := by
  obtain h | rfl := h
  · rw [corner_eq, corner_eq b, h]
    unfold chip
    rw [h, Int.sub_zero]
    have hchip := corner_eq (b.1 - o.1, b.2.1 - o.2.1, b.2.2)
    unfold corner at hchip
    rw [hchip]
    simp [boardToChip]
    omega
  · unfold chip
    simp [boardToChip]

theorem size_mod {n span v w : ℤ} {torus : Bool} (hv : 0 ≤ v ∧ v < span * 12 + 4)
    (hw : w = span * 12 + if torus then 0 else 4) (hspan : torus = true → span = n) :
    v % w ≡ v [ZMOD n * 12] := by
  cases torus with
  | true =>
    rw [hw, hspan rfl, if_pos rfl, Int.add_zero]
    exact Int.mod_modEq v _
  | false =>
    rw [hw, if_neg Bool.false_ne_true, Int.emod_eq_of_lt hv.1 hv.2]

theorem jobChip_congr (ho : Cornered boards o)
    (hspans : boards = {o} ∨ ∃ t, Spans machine boards torus o t)
    (htop : greatestBoard boards = .ok top) (hb : b ∈ boards)
    (hp : (0 ≤ p.1 ∧ p.1 < 8) ∧ 0 ≤ p.2 ∧ p.2 < 8) :
    (((chip o b).1 + p.1) % (dimensions o top boards torus).1 + (corner o).1 ≡
        (corner b).1 + p.1 [ZMOD machine.width * 12]) ∧
      ((chip o b).2 + p.2) % (dimensions o top boards torus).2 + (corner o).2 ≡
        (corner b).2 + p.2 [ZMOD machine.height * 12] := by
  by_cases hcard : 1 < boards.card
  · obtain rfl | ⟨t, ht⟩ := hspans
    · exact absurd hcard (by simp)
    obtain ⟨hx, hy⟩ := chip_add_corner (b := b) (.inl ht.bottom)
    have hlast := key_le.mp ((greatestBoard_spec htop).2 t ht.top)
    have hright := ht.x top (greatestBoard_spec htop).1
    have hhigh := ht.y top (greatestBoard_spec htop).1
    have hbx := ht.x b hb
    have hby := ht.y b hb
    have hlx := ho.x b hb
    have hly := ho.y b hb
    have hbz := ho.z b hb
    have hchip := chip_cases (o := o) (b := b) (by omega)
    unfold dimensions
    rw [if_pos hcard]
    dsimp only [triadDimensionsToChips]
    rw [← hx, ← hy, add_right_comm, add_right_comm (chip o b).2]
    constructor
    · apply Int.ModEq.add_right
      refine size_mod ?_ rfl fun htorus => ?_
      · obtain ⟨-, hc⟩ | ⟨-, hc⟩ | ⟨-, hc⟩ := hchip <;> rw [hc] <;> dsimp only <;> omega
      · have := ht.torusX htorus
        omega
    · apply Int.ModEq.add_right
      refine size_mod ?_ rfl fun htorus => ?_
      · obtain ⟨-, hc⟩ | ⟨-, hc⟩ | ⟨-, hc⟩ := hchip <;> rw [hc] <;> dsimp only <;> omega
      · have := ht.torusY htorus
        omega
  · have hone : b = o := Finset.card_le_one.mp (not_lt.mp hcard) b hb o ho.mem
    subst hone
    have hchip : chip b b = (0, 0) := by simp [chip, boardToChip]
    unfold dimensions
    rw [if_neg hcard, hchip]
    dsimp only
    rw [Int.zero_add, Int.zero_add, Int.emod_eq_of_lt hp.1.1 hp.1.2, Int.emod_eq_of_lt hp.2.1 hp.2.2,
      Int.add_comm, Int.add_comm p.2]
    exact ⟨rfl, rfl⟩

/-- The job is live, on the machine as it is. -/
def On (c : Controller) (machine : Configuration.Machine) (id : ℕ) : Prop :=
  id ∈ c.jobs ∧ ∃ allocated, (c.job id).allocatedMachine = some allocated ∧ allocated.Same machine

/-- The live jobs of a machine are given boards of their own. -/
structure Shared (c : Controller) (machine : Configuration.Machine) : Prop where
  allotted : ∀ id, c.On machine id → ∃ boards, Allotted machine (c.job id) boards
  apart : ∀ id id' boards boards', c.On machine id → c.On machine id' → id ≠ id' →
    (c.job id).boards = some boards → (c.job id').boards = some boards' → Disjoint boards boards'

variable {id : ℕ} {jobs : List ℕ}

theorem jobForLocation_of_apart (hon : c.On machine id)
    (hboards : (c.job id).boards = some boards) (hb : b ∈ boards)
    (hapart : ∀ k, c.On machine k → k ≠ id →
      ∃ boards', (c.job k).boards = some boards' ∧ b ∉ boards')
    (hsub : ∀ k ∈ jobs, k ∈ c.jobs) (hid : id ∈ jobs) :
    jobForLocation c machine b jobs = .ok (some id) := by
  induction jobs with
  | nil => exact absurd hid List.not_mem_nil
  | cons k jobs ih =>
    have hrest (hne : k ≠ id) : jobForLocation c machine b jobs = .ok (some id) :=
      ih (fun k' hk' => hsub k' (List.mem_cons_of_mem k hk'))
        ((List.mem_cons.mp hid).resolve_left (Ne.symm hne))
    obtain ⟨allocated, hallocated, hsame⟩ := hon.2
    unfold jobForLocation
    by_cases heq : k = id
    · rw [heq, hallocated]
      dsimp only
      rw [if_pos hsame, hboards]
      dsimp only
      rw [if_pos hb]
    cases hk : (c.job k).allocatedMachine with
    | none => exact hrest heq
    | some other =>
      dsimp only
      split
      · next hother =>
        obtain ⟨boards', hboards', hb'⟩ :=
          hapart k ⟨hsub k List.mem_cons_self, other, hk, hother⟩ heq
        rw [hboards']
        dsimp only
        rw [if_neg hb']
        exact hrest heq
      · exact hrest heq

theorem jobForLocation_eq (hshared : Shared c machine) (hon : c.On machine id)
    (hboards : (c.job id).boards = some boards) (hb : b ∈ boards) :
    jobForLocation c machine b c.jobs = .ok (some id) := by
  apply jobForLocation_of_apart hon hboards hb _ (fun _ hk => hk) hon.1
  intro k hkon hne
  obtain ⟨boards', hallotted⟩ := hshared.allotted k hkon
  have hdisjoint := hshared.apart k id boards' boards hkon hon hne hallotted.told hboards
  exact ⟨boards', hallotted.told, fun hb' => Finset.disjoint_left.mp hdisjoint hb' hb⟩

theorem modulo_of_ne {a n : ℤ} (hn : 0 < n) : modulo a n = .ok (a % n) := by
  rw [modulo, if_neg hn.ne', Int.fmod_eq_emod_of_nonneg _ hn.le]

theorem getJobChip_eq {width height : ℤ} (ho : Cornered boards o)
    (hboards : (c.job id).boards = some boards) (hwidth : (c.job id).width = some width)
    (hheight : (c.job id).height = some height) (hw : 0 < width) (hh : 0 < height) :
    getJobChip c (some id) b p =
      .ok (some (((chip o b).1 + p.1) % width, ((chip o b).2 + p.2) % height)) := by
  simp only [getJobChip, jobCorner, hboards, lowest_eq ho, hwidth, hheight, jobModulo]
  change (modulo ((chip o b).1 + p.1) width).bind _ = _
  rw [modulo_of_ne hw]
  change (modulo ((chip o b).2 + p.2) height).bind _ = _
  rw [modulo_of_ne hh]
  rfl

theorem getJobChip_congr (hallotted : Allotted machine (c.job id) boards) (hb : b ∈ boards)
    (hp : (0 ≤ p.1 ∧ p.1 < 8) ∧ 0 ≤ p.2 ∧ p.2 < 8) :
    ∃ o q, lowest boards = .ok o ∧ getJobChip c (some id) b p = .ok (some q) ∧
      (q.1 + (corner o).1 ≡ (corner b).1 + p.1 [ZMOD machine.width * 12]) ∧
      q.2 + (corner o).2 ≡ (corner b).2 + p.2 [ZMOD machine.height * 12] := by
  obtain ⟨htold, hlocated, torus, origin, top, -, hd, hleast, hgreatest, hwidth, hheight⟩ := hallotted
  obtain ⟨o, ho, hspans⟩ := hd.cornered fun d hd => inMachine_of_located (hlocated d hd)
  obtain rfl := least_eq ho hleast
  obtain ⟨hw, hh⟩ := dimensions_pos ho (greatestBoard_spec hgreatest).1 torus
  exact ⟨origin, _, lowest_eq ho, getJobChip_eq ho htold hwidth hheight hw hh,
    jobChip_congr ho hspans hgreatest hb hp⟩

theorem describe_chip {name : String} {wanted : Option ℕ} {q : ℤ × ℤ} {chip : ℤ × ℤ}
    {physical : Configuration.Location} (hg : g.Tiles machine.width machine.height)
    (hb : InMachine machine.width machine.height b) (hp : p ∈ g.chips)
    (hx : 0 ≤ chip.1 ∧ chip.1 < machine.width * 12)
    (hy : 0 ≤ chip.2 ∧ chip.2 < machine.height * 12)
    (hchip : Contains machine.width machine.height b p chip)
    (hphysical : machine.boardLocations.get? b = some physical)
    (hjob : jobForLocation c machine b c.jobs = .ok (some id))
    (hq : getJobChip c (some id) b p = .ok (some q)) (hwanted : wanted = none ∨ wanted = some id) :
    describe g c name machine chip.1 chip.2 wanted =
      .ok (some ⟨name, b, physical, chip, p, some id, some q⟩) := by
  obtain ⟨b', hb', hboard, hl, hc⟩ := hg.board hx hy
  obtain ⟨rfl, rfl⟩ := hg.unique b b' p _ chip hb hb' hp hl hchip hc
  have hw : 0 < machine.width := hb.x.1.trans_lt hb.x.2
  have hh : 0 < machine.height := hb.y.1.trans_lt hb.y.2
  rw [describe_eq hw hh, Int.emod_eq_of_lt hx.1 hx.2, Int.emod_eq_of_lt hy.1 hy.2, hboard]
  simp only [Except.bind, hphysical, hjob]
  rw [if_neg, hq]
  obtain rfl | rfl := hwanted
  · exact fun hne => hne.1 rfl
  · exact fun hne => hne.2 rfl

/-- Every chip of a job is known to be one of the job, and is found again as that. -/
theorem job_chips_inverse {j : ℕ} {chip : ℤ × ℤ} (hg : g.Tiles machine.width machine.height)
    (hm : c.machines.get? machine.name = some machine) (hshared : Shared c machine)
    (hon : c.On machine j) (hboards : (c.job j).boards = some boards) (hb : b ∈ boards)
    (hp : p ∈ g.chips) (hx : 0 ≤ chip.1 ∧ chip.1 < machine.width * 12)
    (hy : 0 ≤ chip.2 ∧ chip.2 < machine.height * 12)
    (hchip : Contains machine.width machine.height b p chip) :
    ∃ r q, c.whereIs g (.chip machine.name chip.1 chip.2) = .ok (some r) ∧ r.jobId = some j ∧
      r.jobChip = some q ∧ r.chip = chip ∧
      c.whereIs g (.jobChip j q.1 q.2) = .ok (some r) := by
  obtain ⟨boards', hallotted⟩ := hshared.allotted j hon
  obtain rfl := Option.some.inj (hboards.symm.trans hallotted.told)
  have hin := inMachine_of_located (hallotted.located b hb)
  obtain ⟨physical, hphysical⟩ := Option.isSome_iff_exists.mp (hallotted.located b hb)
  have hjob := jobForLocation_eq hshared hon hboards hb
  obtain ⟨o, q, ho, hq, hqx, hqy⟩ := getJobChip_congr hallotted hb (hg.small p hp)
  refine ⟨⟨machine.name, b, physical, chip, p, some j, some q⟩, q, ?_, rfl, rfl, rfl, ?_⟩
  · simp only [whereIs, whereIsByChipCoordinate, hm]
    exact describe_chip hg hin hp hx hy hchip hphysical hjob hq (.inl rfl)
  · obtain ⟨allocated, hallocated, hsame⟩ := hon.2
    have hw : 0 < machine.width := hin.x.1.trans_lt hin.x.2
    have hh : 0 < machine.height := hin.y.1.trans_lt hin.y.2
    have hlive : ¬(j ∉ c.jobs ∨ some boards = none) := by simp [hon.1]
    have hfound : c.whereIs g (.jobChip j q.1 q.2) =
        c.describe g machine.name machine (q.1 + (corner o).1) (q.2 + (corner o).2) (some j) := by
      simp only [whereIs, whereIsByJobChipCoordinate, hallocated, jobCorner, hboards, ho, hsame.name,
        hm]
      rw [if_neg hlive]
      rfl
    rw [hfound, describe_congr hw hh (hqx.trans hchip.x) (hqy.trans hchip.y)]
    exact describe_chip hg hin hp hx hy hchip hphysical hjob hq (.inr rfl)

def halved : Configuration.Machine :=
  (Configuration.Machine.new "m" {"default"} (some 2) (some 1)
    {(0, 0, 0), (0, 0, 1), (0, 0, 2)} ∅
    ⟨(Configuration.Machine.boardsOf 2 1).map fun b => (b, (0, 0, b.1 * 3 + b.2.2)),
      by decide +kernel⟩
    (Dict.empty.set (0, 0) "bmp")
    ⟨(Configuration.Machine.boardsOf 2 1).map fun b => (b, "board"), by decide +kernel⟩
    (.sorted Board.key) (.sorted BoardLink.key) (.sorted toLex)).toOption.getD (.ofBoard "" ∅ "" "")

def halvedMachines : Machines where
  dict := Dict.empty.set "m" halved
  named name machine h := by
    rw [Dict.get?_set] at h
    split at h
    · next hn =>
      cases h
      rw [← hn]
      decide +kernel
    · cases h

def halvedBoards : Finset Board := {(1, 0, 0), (1, 0, 1), (1, 0, 2)}

def halving : List Operation :=
  [.setMachines halvedMachines,
    .createJob none (some "owner") (some none) none none { args := .two (.int 1) (.int 1) }]

def halvedFilter : CandidateFilter where
  width := 2
  height := 1
  deadBoards := {(0, 0, 0), (0, 0, 1), (0, 0, 2)}
  deadLinks := ∅
  maxDeadBoards := none
  maxDeadLinks := none
  requireTorus := false
  expectedBoards := none

def isHalved (machine allocated : Configuration.Machine) : Bool :=
  decide (machine.name = "m" ∧ machine.width = 2 ∧ machine.height = 1 ∧
    allocated.Same machine ∧ ∀ b ∈ halvedBoards, (machine.boardLocations.get? b).isSome)

theorem delivered_halved (hwidth : machine.width = 2) (hheight : machine.height = 1) :
    Delivered machine halvedBoards ⟨false, true⟩ := by
  have hcall : ((halvedFilter.call 1 0 1 1 none).1 &&
      (halvedFilter.call 1 0 1 1 none).2.any fun candidate =>
        decide (candidate.boards = halvedBoards ∧ candidate.torus = ⟨false, true⟩)) = true := by
    decide +kernel
  obtain ⟨haccepted, hfound⟩ := Bool.and_eq_true_iff.mp hcall
  obtain ⟨⟨boards, periphery, torus⟩, hlast, hfound⟩ := (Option.any_eq_true _ _).mp hfound
  obtain ⟨hboards, htorus⟩ := of_decide_eq_true hfound
  dsimp only at hboards htorus
  subst hboards htorus
  exact .candidate halvedFilter 1 0 1 1 none periphery hwidth.symm hheight.symm
    (Prod.ext haccepted hlast) ⟨(1, 0, 0), by decide, by decide⟩

theorem shared_of_single (hjobs : c.jobs = [id]) (h : Allotted machine (c.job id) boards) :
    Shared c machine := by
  have hone (k : ℕ) (hon : c.On machine k) : k = id := by
    have hk := hon.1
    rw [hjobs] at hk
    exact List.mem_singleton.mp hk
  constructor
  · intro k hon
    rw [hone k hon]
    exact ⟨boards, h⟩
  · intro k k' _ _ hon hon' hne
    exact absurd ((hone k hon).trans (hone k' hon').symm) hne

theorem job_chips_inverse_halved : ∃ machine : Configuration.Machine, ∃ r q,
    (runs Setup.quiet.start halving).2.whereIs Geometry.spinn5 (.chip machine.name 0 11) =
        .ok (some r) ∧ r.jobId = some 1 ∧ r.jobChip = some q ∧ r.chip = (0, 11) ∧
      (runs Setup.quiet.start halving).2.whereIs Geometry.spinn5 (.jobChip 1 q.1 q.2) =
        .ok (some r) := by
  have hfound : (((runs Setup.quiet.start halving).2.machines.get? "m").any fun machine =>
      ((runs Setup.quiet.start halving).2.job 1).allocatedMachine.any (isHalved machine)) =
        true := by
    decide +kernel
  have hjobs : (runs Setup.quiet.start halving).2.jobs = [1] := by decide +kernel
  have hboards : ((runs Setup.quiet.start halving).2.job 1).boards = some halvedBoards := by
    decide +kernel
  have htorus : ((runs Setup.quiet.start halving).2.job 1).torus = some ⟨false, true⟩ := by
    decide +kernel
  have hsize : ((runs Setup.quiet.start halving).2.job 1).size = (some 16, some 12) := by
    decide +kernel
  generalize (runs Setup.quiet.start halving).2 = c at *
  obtain ⟨machine, hget, hfound⟩ := (Option.any_eq_true _ _).mp hfound
  obtain ⟨allocated, hallocated, hfound⟩ := (Option.any_eq_true _ _).mp hfound
  obtain ⟨hname, hwidth, hheight, hsame, hlocated⟩ := of_decide_eq_true hfound
  have hallotted : Allotted machine (c.job 1) halvedBoards :=
    ⟨hboards, hlocated, ⟨false, true⟩, (1, 0, 0), (1, 0, 2), htorus,
      delivered_halved hwidth hheight, by decide +kernel, by decide +kernel,
      congrArg Prod.fst hsize, congrArg Prod.snd hsize⟩
  have hchip : Contains machine.width machine.height (1, 0, 1) (4, 7) (0, 11) := by
    rw [hwidth, hheight]
    exact ⟨by decide, by decide⟩
  refine ⟨machine, job_chips_inverse (spinn5_tiles _ _) (hname ▸ hget)
    (shared_of_single hjobs hallotted) ⟨?_, allocated, hallocated, hsame⟩ hboards
    (show (1, 0, 1) ∈ halvedBoards by decide) (mem_chips_spinn5.mpr (by decide)) ?_ ?_ hchip⟩
  · rw [hjobs]
    exact List.mem_singleton_self 1
  · rw [hwidth]
    decide
  · rw [hheight]
    decide

end Controller

end SpallocServer
