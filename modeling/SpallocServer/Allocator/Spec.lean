import SpallocServer.PackTree.Spec
import SpallocServer.Allocator

namespace SpallocServer

open Foundation Prog

namespace Request

def Sane (r : Request) : Prop := r.z ≠ .none → ∃ z, r.z = .int z ∧ 0 ≤ z ∧ z < 3

/-- Arguments of the documented types, for which `alloc` has no reason to raise. -/
def Good (r : Request) : Prop :=
  match r.allocType with
  | .error _ => False
  | .ok .board => r.torus = .false ∧ Allocator.boardArgs r.x r.y r.z ∧
      (r.y ≠ .none → ∃ x y z, r.x = .int x ∧ r.y = .int y ∧ r.z = .int z ∧ 0 ≤ z ∧ z < 3)
  | .ok .boards => ∃ n c q, r.bindBoards = .ok (.int n, c) ∧ n.natAbs < Allocator.floatLimit ∧
      c.minRatio = some q ∧ 0 ≤ q
  | .ok .triads => ∃ w h c, r.bindTriads = .ok (.int w, .int h, c)

def Wants (r : Request) (rect : Region) : Prop :=
  (r.x = .int rect.width ∧ r.y = .int rect.height) ∨
    ∃ n, r.x = .int n ∧ r.y = .none ∧ n ≤ 3 * rect.area

def WantsBoard (r : Request) (b : Board) : Prop :=
  r.y = .none ∨ (r.x = .int b.1 ∧ r.y = .int b.2.1 ∧ r.z = .int b.2.2)

end Request

namespace Allocator

/-- What `alloc` can do once the expired entries are freed. A triad that is opened for a board
that does not exist stays opened. -/
inductive Outcome (a : Allocator) (r : Request) :
    Except Error (Option Allocation) → Allocator → Prop where
  | refused {e : Error} (hg : ¬r.Good) (he : e.Argument) : Outcome a r (.error e) a
  | starved {p : ℤ × ℤ} (hs : a.singleBoardTriads.get? p = some ∅) :
    Outcome a r (.error .keyError) a
  | nothing : Outcome a r (.ok none) a
  | triads {f : CandidateFilter} {rect : Region} {tree : PackTree} {torus : WrapAround}
      (hw : f.width = a.width) (hh : f.height = a.height) (hd : f.deadBoards = a.deadBoards)
      (hwants : r.Wants rect) (hadd : a.packTree.Adds rect tree)
      {boards : Finset Board}
      (hb : boards = f.enumerateBoards rect.x rect.y rect.width rect.height)
      (hne : boards.Nonempty) :
    Outcome a r (.ok (some ⟨a.nextId, boards, (f.classifyLinks boards).periphery, torus⟩))
      ({ a with packTree := tree }.registered .triads (rect.x, rect.y, 0))
  | spare {x y z : ℤ} (hz : z ∈ a.available (x, y)) (hwants : r.WantsBoard (x, y, z)) :
    Outcome a r (.ok (some (.ofBoard a.nextId (x, y, z))))
      ((a.taken (x, y) z).registered .board (x, y, z))
  | fresh {x y z : ℤ} {tree : PackTree} (hadd : a.packTree.Adds ⟨x, y, 1, 1⟩ tree)
      (hz : z ∈ a.working (x, y)) (hwants : r.WantsBoard (x, y, z)) :
    Outcome a r (.ok (some (.ofBoard a.nextId (x, y, z))))
      (((a.opened (x, y) tree).taken (x, y) z).registered .board (x, y, z))
  | leaked {x y : ℤ} {tree : PackTree} (hadd : a.packTree.Adds ⟨x, y, 1, 1⟩ tree)
      (hsane : ¬r.Sane) (hx : r.x = .int x) (hy : r.y = .int y) :
    Outcome a r (.ok none) (a.opened (x, y) tree)

/-- A call that ends in one of the outcomes. -/
def Ends (a : Allocator) (r : Request) (m : Prog Error Allocator (Option Allocation)) : Prop :=
  wp m (fun res => Outcome a r (.ok res)) (fun e => Outcome a r (.error e)) a

variable {a : Allocator} {r : Request}

theorem mem_available {a : Allocator} {p : ℤ × ℤ} {z : ℤ} :
    z ∈ a.available p ↔ ∃ free, a.singleBoardTriads.get? p = some free ∧ z ∈ free := by
  unfold available
  cases a.singleBoardTriads.get? p <;> simp

@[simp] theorem available_opened_self (a : Allocator) (p : ℤ × ℤ) (tree : PackTree) :
    (a.opened p tree).available p = a.working p := by
  simp [available, opened]

theorem mem_working {a : Allocator} {p : ℤ × ℤ} {z : ℤ} :
    z ∈ a.working p ↔ (0 ≤ z ∧ z < 3) ∧ (p.1, p.2, z) ∉ a.deadBoards := by
  simp only [working, Finset.mem_filter, Finset.mem_insert, Finset.mem_singleton]
  refine and_congr_left fun _ => ?_
  omega

@[simp] theorem nextId_taken (a : Allocator) (p : ℤ × ℤ) (z : ℤ) :
    (a.taken p z).nextId = a.nextId := rfl

theorem take_wp {Q : Allocation → Allocator → Prop} {E : Error → Allocator → Prop} {x y z : ℤ}
    (hz : z ∈ a.available (x, y))
    (h : Q (.ofBoard a.nextId (x, y, z)) ((a.taken (x, y) z).registered .board (x, y, z))) :
    wp (take (x, y, z)) Q E a := by
  have hne : a.available (x, y) ≠ ∅ := Finset.ne_empty_of_mem hz
  simp only [take, register, wp_bind, wp_state, if_neg hne, wp_update, wp_pure, nextId_taken]
  exact h

/-- The board that is picked is a spare one, unless a triad without spare boards is in the
table of those that have some. -/
theorem spare_eq {b : Board} (h : a.spare r.x r.y r.z = some b) :
    r.WantsBoard b ∧ (b.2.2 ∈ a.available (b.1, b.2.1) ∨
      (a.singleBoardTriads.get? (b.1, b.2.1) = some ∅ ∧ a.available (b.1, b.2.1) = ∅)) := by
  unfold spare at h
  split at h
  · next hy =>
    refine ⟨.inl hy, ?_⟩
    cases hk : a.singleBoardTriads.keys with
    | nil => simp [hk] at h
    | cons xy rest =>
      rw [hk] at h
      obtain rfl := Option.some.inj h
      dsimp only
      obtain ⟨free, hf⟩ := Dict.mem_keys.mp (hk ▸ List.mem_cons_self : xy ∈ a.singleBoardTriads.keys)
      have hav : a.available xy = free := by simp [available, hf]
      rcases free.eq_empty_or_nonempty with rfl | hne
      · exact .inr ⟨hf, hav⟩
      · exact .inl (hav ▸ a.setPop.mem _ _ hne)
  · next hy =>
    unfold toBoard at h
    split at h
    · next b' hb =>
      split at hb
      · next x y z hx hy hz =>
        obtain rfl := Option.some.inj hb
        split at h
        · next hz' =>
          obtain rfl := Option.some.inj h
          exact ⟨.inr ⟨hx, hy, hz⟩, .inl hz'⟩
        · cases h
      · cases hb
    · cases h

theorem take_spare {b : Board} (h : a.spare r.x r.y r.z = some b) :
    Ends a r (some <$> take b) := by
  obtain ⟨x, y, z⟩ := b
  obtain ⟨hw, hz | ⟨hs, he⟩⟩ := spare_eq h
  · unfold Ends
    rw [wp_map]
    exact take_wp hz (.spare hz hw)
  · unfold Ends
    rw [wp_map]
    simp only [take, wp_bind, wp_state, if_pos he, wp_raise]
    exact .starved hs

/-- What is known once the checks at the head of `_alloc_board` are passed. -/
structure Checked (a : Allocator) (r : Request) : Prop where
  torus : r.torus = .false
  args : boardArgs r.x r.y r.z
  alive : r.y ≠ .none → a.isDead r.x r.y r.z = false

theorem allocBoard_succ (hc : Checked a r) (n : ℕ) :
    (allocBoard r.x r.y r.z r.torus (n + 1)).run a =
      (match a.spare r.x r.y r.z with
      | some b => some <$> take b
      | none => do
        match ← (if r.y ≠ Value.none then request r.x r.y else allocTriad) with
        | none => return none
        | some xy =>
          update fun a => a.opened xy a.packTree
          allocBoard r.x r.y r.z r.torus n).run a := by
  have hd : ¬(r.y ≠ .none ∧ a.isDead r.x r.y r.z = true) := by
    rintro ⟨hy, hd⟩
    rw [hc.alive hy] at hd
    cases hd
  conv_lhs => unfold allocBoard
  change (if r.torus ≠ .false then raise .assertionError else if ¬ _ then raise .assertionError
    else if _ then pure none else _ : Prog Error Allocator (Option Allocation)).run a = _
  exact congrArg (fun m : Prog Error Allocator (Option Allocation) => m.run a)
    ((if_neg (not_not.mpr hc.torus)).trans ((if_neg (not_not.mpr hc.args)).trans (if_neg hd)))

theorem allocBoard_opened (hc : Checked a r) {x y z : ℤ} {tree : PackTree} (n : ℕ)
    (hadd : a.packTree.Adds ⟨x, y, 1, 1⟩ tree)
    (hs : (a.opened (x, y) tree).spare r.x r.y r.z = some (x, y, z))
    (hz : z ∈ a.working (x, y)) :
    wp (allocBoard r.x r.y r.z r.torus (n + 1)) (fun res => Outcome a r (.ok res))
      (fun e => Outcome a r (.error e)) (a.opened (x, y) tree) := by
  have hc' : Checked (a.opened (x, y) tree) r := ⟨hc.torus, hc.args, hc.alive⟩
  unfold wp
  rw [allocBoard_succ hc', hs]
  change wp (some <$> take (x, y, z)) _ _ _
  rw [wp_map]
  exact take_wp (by simpa using hz) (.fresh hadd hz (spare_eq hs).1)

theorem allocTriad_spec (ht : a.packTree.Valid) :
    wp allocTriad (fun res a' => (res = none ∧ a' = a) ∨ ∃ x y tree, res = some (x, y) ∧
        a.packTree.Adds ⟨x, y, 1, 1⟩ tree ∧ (a.working (x, y)).Nonempty ∧
        a' = { a with packTree := tree })
      (fun _ _ => False) a := by
  have hA := PackTree.alloc_spec (some a.hasAtLeastOneWorkingBoard) Int.one_pos Int.one_pos ht ()
  simp only [allocTriad, wp_bind, wp_state, wp_update, wp_pure]
  generalize a.packTree.alloc (some a.hasAtLeastOneWorkingBoard) 1 1 () = res at hA ⊢
  obtain ⟨_ | ⟨x, y⟩, tree, s⟩ := res
  · obtain ⟨rfl, -⟩ := hA.none rfl
    exact .inl ⟨rfl, rfl⟩
  · obtain ⟨hadd, s₁, -, hacc⟩ := hA.some x y rfl
    refine .inr ⟨x, y, tree, rfl, hadd, ?_, rfl⟩
    have hlt : ([0, 1, 2].filter fun z : ℤ => (x, y, z) ∈ a.deadBoards).length < 3 := by
      simpa [PackTree.accepts, hasAtLeastOneWorkingBoard] using hacc
    by_contra hemp
    rw [Finset.not_nonempty_iff_eq_empty, Finset.eq_empty_iff_forall_notMem] at hemp
    have hdead (z : ℤ) (hz : 0 ≤ z ∧ z < 3) : (x, y, z) ∈ a.deadBoards := by
      by_contra hd
      exact hemp z (mem_working.mpr ⟨hz, hd⟩)
    simp [hdead 0 (by omega), hdead 1 (by omega), hdead 2 (by omega)] at hlt

theorem request_spec (ht : a.packTree.Valid) (x y : Value) :
    wp (request x y) (fun res a' => (res = none ∧ a' = a) ∨ ∃ x' y' tree, x = .int x' ∧
        y = .int y' ∧ res = some (x', y') ∧ a.packTree.Adds ⟨x', y', 1, 1⟩ tree ∧
        a' = { a with packTree := tree })
      (fun e a' => a' = a ∧ (¬∃ x' y', x = .int x' ∧ y = .int y') ∧ e.Argument) a := by
  simp only [request, wp_bind, wp_state]
  cases x with
  | none => exact ⟨rfl, by simp, trivial⟩
  | other t => exact ⟨rfl, by simp, trivial⟩
  | int x =>
    simp only [Value.above, Value.num, wp_ofExcept_ok]
    split
    · exact .inl ⟨rfl, rfl⟩
    cases y with
    | none => exact ⟨rfl, by simp, trivial⟩
    | other t => exact ⟨rfl, by simp, trivial⟩
    | int y =>
      simp only [wp_bind, wp_ofExcept_ok, wp_update, wp_pure]
      have hR := PackTree.request_spec x y ht
      generalize a.packTree.request x y = res at hR ⊢
      obtain ⟨_ | xy, tree⟩ := res
      · obtain ⟨rfl, -⟩ := hR.none rfl
        exact .inl ⟨rfl, rfl⟩
      · obtain ⟨rfl, hadd⟩ := hR.some xy rfl
        exact .inr ⟨x, y, tree, rfl, rfl, rfl, hadd, rfl⟩

theorem allocBoard_leaked (hc : Checked a r) {x y : ℤ} {tree : PackTree}
    (hadd : a.packTree.Adds ⟨x, y, 1, 1⟩ tree) (hsane : ¬r.Sane) (hx : r.x = .int x)
    (hy : r.y = .int y) :
    wp (allocBoard r.x r.y r.z r.torus 1) (fun res => Outcome a r (.ok res))
      (fun e => Outcome a r (.error e)) (a.opened (x, y) tree) := by
  have hc' : Checked (a.opened (x, y) tree) r := ⟨hc.torus, hc.args, hc.alive⟩
  have hy' : r.y ≠ .none := by simp [hy]
  have hs : (a.opened (x, y) tree).spare r.x r.y r.z = none := by
    cases hz : r.z with
    | none => simp [spare, toBoard, hx, hy]
    | other t => simp [spare, toBoard, hx, hy]
    | int z =>
      have hzw : z ∉ a.working (x, y) := by
        rw [mem_working]
        exact fun h => hsane fun _ => ⟨z, hz, h.1⟩
      simp [spare, toBoard, hx, hy, hzw]
  unfold wp
  rw [allocBoard_succ hc', hs, if_pos hy']
  change wp (request r.x r.y >>= _) _ _ _
  rw [wp_bind]
  refine (request_spec (a := a.opened (x, y) tree) hadd.valid r.x r.y).mono ?_ ?_
  · rintro res a' (⟨rfl, rfl⟩ | ⟨x', y', tree', hx', hy'', rfl, hadd', rfl⟩)
    · exact .leaked hadd hsane hx hy
    · obtain rfl : x = x' := Value.int.inj (hx.symm.trans hx')
      obtain rfl : y = y' := Value.int.inj (hy.symm.trans hy'')
      have hm : (x, y) ∈ (⟨x, y, 1, 1⟩ : Region).cells :=
        Region.corner_mem ⟨Int.one_pos, Int.one_pos⟩
      exact absurd hm (hadd'.fresh _ ((hadd.mem _).mpr (.inl rfl)) _ hm)
  · rintro e a' ⟨-, hno, -⟩
    exact absurd ⟨x, y, hx, hy⟩ hno

theorem openAny_spec (ht : a.packTree.Valid) (hc : Checked a r) (hy : r.y = .none)
    (hs : a.spare r.x r.y r.z = none) (n : ℕ) :
    wp allocTriad (fun res => wp (match res with
        | none => return none
        | some xy => do
          update fun a => a.opened xy a.packTree
          allocBoard r.x r.y r.z r.torus (n + 1)) (fun res => Outcome a r (.ok res))
        (fun e => Outcome a r (.error e))) (fun e => Outcome a r (.error e)) a := by
  refine (allocTriad_spec ht).mono ?_ (fun _ _ h => h.elim)
  rintro res a' (⟨rfl, rfl⟩ | ⟨x, y, tree, rfl, hadd, hne, rfl⟩)
  · exact .nothing
  · have hk : a.singleBoardTriads.keys = [] := by
      unfold spare at hs
      rw [if_pos hy] at hs
      split at hs
      · assumption
      · cases hs
    have hk' : (a.opened (x, y) tree).singleBoardTriads.keys = [(x, y)] :=
      Dict.keys_set_of_nil hk _ _
    have hs' : (a.opened (x, y) tree).spare r.x r.y r.z =
        some (x, y, a.setPop.pick a.nextId (a.working (x, y))) := by
      unfold spare
      rw [if_pos hy, hk']
      dsimp only
      rw [available_opened_self]
      rfl
    simp only [wp_bind, wp_update]
    exact allocBoard_opened hc n hadd hs' (a.setPop.mem _ _ hne)

theorem once_error {parameters : List (String × Bool)} {f : String → Error}
    (h : Request.once parameters = .error f) (function : String) : (f function).Argument := by
  unfold Request.once at h
  split at h
  · cases h
    trivial
  · cases h

theorem bindType_error {f : String → Error} (h : r.bindType = .error f) (function : String) :
    (f function).Argument := by
  unfold Request.bindType at h
  split at h
  · obtain hf | ⟨_, -, h⟩ := bind_eq_error.mp h
    · exact once_error hf _
    · split at h
      · cases h
        trivial
      · cases h
  · cases h

theorem allocType_inv {t : AllocationType} (h : r.allocType = .ok t) :
    r.type = t ∧ ¬(r.type = .board ∧ r.torus.holds) := by
  unfold Request.allocType at h
  cases hb : r.bindType with
  | error f =>
    rw [hb] at h
    cases h
  | ok u =>
    rw [hb] at h
    change (if _ then _ else _) = _ at h
    split at h
    · cases h
    · next hn => exact ⟨Except.ok.inj h, hn⟩

theorem allocType_ok {t : AllocationType} (h : r.allocType = .ok t) : r.type = t :=
  (allocType_inv h).1

theorem good_type (h : r.Good) : r.allocType = .ok r.type := by
  cases ht : r.allocType with
  | error e => simp [Request.Good, ht] at h
  | ok t => rw [allocType_ok ht]

theorem openNamed_spec (ht : a.packTree.Valid) (hc : Checked a r) (hy : r.y ≠ .none) :
    wp (request r.x r.y) (fun res => wp (match res with
        | none => return none
        | some xy => do
          update fun a => a.opened xy a.packTree
          allocBoard r.x r.y r.z r.torus 1) (fun res => Outcome a r (.ok res))
        (fun e => Outcome a r (.error e))) (fun e => Outcome a r (.error e)) a := by
  have hz : r.z ≠ .none := by
    intro hz
    have hargs := hc.args
    have hy' : (r.y == Value.none) = false := beq_eq_false_iff_ne.mpr hy
    simp [boardArgs, hz, hy'] at hargs
  refine (request_spec ht r.x r.y).mono ?_ ?_
  · rintro res a' (⟨rfl, rfl⟩ | ⟨x, y, tree, hx, hy', rfl, hadd, rfl⟩)
    · exact .nothing
    by_cases hsane : r.Sane
    · obtain ⟨z, hz, hz0⟩ := hsane hz
      have hd := hc.alive hy
      have hzw : z ∈ a.working (x, y) := by
        refine mem_working.mpr ⟨hz0, ?_⟩
        simpa [isDead, toBoard, hx, hy', hz] using hd
      have hs' : (a.opened (x, y) tree).spare r.x r.y r.z = some (x, y, z) := by
        unfold spare
        rw [if_neg hy]
        simp [toBoard, hx, hy', hz, hzw]
      simp only [wp_bind, wp_update]
      exact allocBoard_opened hc 0 hadd hs' hzw
    · simp only [wp_bind, wp_update]
      exact allocBoard_leaked hc hadd hsane hx hy'
  · rintro e a' ⟨rfl, hno, he⟩
    refine .refused (fun hg => absurd ?_ hno) he
    have ht : r.allocType = .ok .board := by
      rw [good_type hg]
      simp [Request.type, hy, hz]
    simp only [Request.Good, ht] at hg
    obtain ⟨x, y, -, hx, hy', -⟩ := hg.2.2 hy
    exact ⟨x, y, hx, hy'⟩

theorem allocType_error {e : Error} (h : r.allocType = .error e) : e.Argument := by
  unfold Request.allocType at h
  cases hb : r.bindType with
  | error f =>
    rw [hb] at h
    cases h
    exact bindType_error hb _
  | ok u =>
    rw [hb] at h
    change (if _ then _ else _) = _ at h
    split at h
    · cases h
      trivial
    · cases h

theorem allocType_boards (h : r.allocType = .ok .boards) : r.y = .none := by
  have ht := allocType_ok h
  by_contra hy
  simp only [Request.type, hy, if_false] at ht
  split at ht
  · cases ht
  split at ht <;> cases ht

theorem allocType_triads (h : r.allocType = .ok .triads) : r.z = .none := by
  have ht := allocType_ok h
  unfold Request.type at ht
  split at ht
  · cases ht
  split at ht
  · split at ht <;> cases ht
  split at ht
  · assumption
  · cases ht

theorem allocBoard_spec (ht : a.packTree.Valid)
    (hty : r.allocType = .ok .board) : Ends a r (allocBoard r.x r.y r.z r.torus 2) := by
  by_cases htorus : r.torus = .false
  swap
  · simp only [Ends, allocBoard, wp_bind, wp_state, ne_eq, htorus, not_false_eq_true, if_true,
      wp_raise]
    refine .refused (fun hg => htorus ?_) trivial
    simp only [Request.Good, hty] at hg
    exact hg.1
  by_cases hargs : boardArgs r.x r.y r.z
  · by_cases hdead : r.y ≠ .none ∧ a.isDead r.x r.y r.z
    · simp only [Ends, allocBoard, wp_bind, wp_state, htorus, hargs, hdead, if_false, not_true,
        if_true, ne_eq, not_false_eq_true, and_self, wp_pure]
      exact .nothing
    · have hc : Checked a r := ⟨htorus, hargs, fun hy => by
        by_contra hd
        exact hdead ⟨hy, by simpa using hd⟩⟩
      unfold Ends wp
      rw [allocBoard_succ hc]
      cases hs : a.spare r.x r.y r.z with
      | some b => exact take_spare hs
      | none =>
        change wp _ _ _ a
        by_cases hy : r.y = .none
        · rw [if_neg (not_not.mpr hy), wp_bind]
          exact openAny_spec ht hc hy hs 0
        · rw [if_pos hy, wp_bind]
          exact openNamed_spec ht hc hy
  · simp only [Ends, allocBoard, wp_bind, wp_state, htorus, hargs, ne_eq, not_true,
      Bool.false_eq_true, if_false, not_false_eq_true, if_true, wp_raise]
    refine .refused (fun hg => hargs ?_) trivial
    simp only [Request.Good, hty] at hg
    exact hg.2.1

theorem bindTriads_ok {w h : Value} {c : Constraints} (hb : r.bindTriads = .ok (w, h, c)) :
    w = r.x ∧ h = r.y := by
  obtain ⟨args, mr, mb, ml, rt⟩ := r
  cases args <;> simp only [Request.bindTriads, Request.x, Request.y] at hb ⊢
  case three =>
    obtain ⟨_, -, hb⟩ := bind_eq_ok.mp hb
    cases hb
    exact ⟨rfl, rfl⟩
  case more =>
    obtain ⟨_, -, hb⟩ := bind_eq_ok.mp hb
    split at hb
    · cases hb
    · cases hb
      exact ⟨rfl, rfl⟩
  all_goals
    cases hb
    exact ⟨rfl, rfl⟩

theorem bindBoards_ok {n : Value} {c : Constraints} (hb : r.bindBoards = .ok (n, c)) :
    n = r.x ∧ (c.minRatio ≠ none → r.z = .none) := by
  obtain ⟨args, mr, mb, ml, rt⟩ := r
  cases args <;> simp only [Request.bindBoards, Request.x, Request.z] at hb ⊢
  case two | three =>
    obtain ⟨_, -, hb⟩ := bind_eq_ok.mp hb
    cases hb
    exact ⟨rfl, fun hq => absurd rfl hq⟩
  case more =>
    obtain ⟨_, -, hb⟩ := bind_eq_ok.mp hb
    split at hb
    · cases hb
    · cases hb
      exact ⟨rfl, fun hq => absurd rfl hq⟩
  all_goals
    cases hb
    simp

theorem bindBoards_z {n : Value} {c : Constraints} (hb : r.bindBoards = .ok (n, c))
    (hq : c.minRatio ≠ none) : r.z = .none := (bindBoards_ok hb).2 hq

theorem boardArgs_z {x z : Value} (h : boardArgs x .none z) : z = .none := by
  cases x <;> cases z <;> simp_all [boardArgs]

theorem good_sane (h : r.Good) : r.Sane := by
  intro hz
  cases ht : r.allocType with
  | error e => simp [Request.Good, ht] at h
  | ok t =>
    simp only [Request.Good, ht] at h
    cases t with
    | board =>
      obtain ⟨-, hargs, hnamed⟩ := h
      by_cases hy : r.y = .none
      · rw [hy] at hargs
        exact absurd (boardArgs_z hargs) hz
      · obtain ⟨x, y, z, -, -, hz', h3⟩ := hnamed hy
        exact ⟨z, hz', h3⟩
    | boards =>
      obtain ⟨n, c, q, hb, -, hq, -⟩ := h
      exact absurd (bindBoards_z hb (by simp [hq])) hz
    | triads => exact absurd (allocType_triads ht) hz

theorem bindTriads_error {f : String → Error} (hb : r.bindTriads = .error f)
    (function : String) : (f function).Argument := by
  obtain ⟨args, mr, mb, ml, rt⟩ := r
  cases args <;> simp only [Request.bindTriads] at hb
  case three =>
    obtain hb | ⟨_, -, hb⟩ := bind_eq_error.mp hb
    · exact once_error hb function
    · cases hb
  case more =>
    obtain hb | ⟨_, -, hb⟩ := bind_eq_error.mp hb
    · exact once_error hb function
    · split at hb
      · cases hb
        trivial
      · cases hb
  all_goals cases hb

theorem bindBoards_error {f : String → Error} (hb : r.bindBoards = .error f)
    (function : String) : (f function).Argument := by
  obtain ⟨args, mr, mb, ml, rt⟩ := r
  cases args <;> simp only [Request.bindBoards] at hb
  case two | three =>
    obtain hb | ⟨_, -, hb⟩ := bind_eq_error.mp hb
    · exact once_error hb function
    · cases hb
  case more =>
    obtain hb | ⟨_, -, hb⟩ := bind_eq_error.mp hb
    · exact once_error hb function
    · split at hb
      · cases hb
        trivial
      · cases hb
  all_goals cases hb

theorem allocated_spec {f : CandidateFilter} (rect : Region) {tree : PackTree}
    {last : Option Candidate} (hw : f.width = a.width) (hh : f.height = a.height)
    (hd : f.deadBoards = a.deadBoards) (hwants : r.Wants rect)
    (hadd : a.packTree.Adds rect tree)
    (hacc : PackTree.Accepted (some f.call) rect.x rect.y rect.width rect.height none last) :
    wp (allocated (rect.x, rect.y) last) (fun res => Outcome a r (.ok res))
      (fun e => Outcome a r (.error e)) { a with packTree := tree } := by
  obtain ⟨s₁, -, hcall⟩ := hacc
  obtain ⟨torus, rfl, hne⟩ := CandidateFilter.call_spec hcall
  simp only [allocated, register, wp_bind, wp_state, wp_update, wp_pure]
  exact .triads hw hh hd hwants hadd rfl hne

theorem allocTriads_spec (ht : a.packTree.Valid) {c : Constraints}
    (hg : r.Good → ∃ w h, r.x = .int w ∧ r.y = .int h) :
    Ends a r (allocTriads r.x r.y c) := by
  simp only [Ends, allocTriads, wp_bind, wp_state]
  split
  · exact .nothing
  cases hx : r.x with
  | none => exact .refused (fun hr => by simp [hx] at hg; exact hg hr) trivial
  | other t => exact .refused (fun hr => by simp [hx] at hg; exact hg hr) trivial
  | int w =>
    simp only [Value.against, Value.num, wp_bind, wp_ofExcept_ok]
    split
    · exact .nothing
    next hw =>
    cases hy : r.y with
    | none => exact .refused (fun hr => by simp [hy] at hg; exact hg hr) trivial
    | other t => exact .refused (fun hr => by simp [hy] at hg; exact hg hr) trivial
    | int h =>
      simp only [wp_bind, wp_ofExcept_ok]
      split
      · exact .nothing
      next hh =>
      have hA := PackTree.alloc_spec (some (a.candidateFilter c none).call) (not_le.mp hw)
        (not_le.mp hh) ht none
      generalize a.packTree.alloc (some (a.candidateFilter c none).call) w h none = res at hA ⊢
      obtain ⟨_ | ⟨x, y⟩, tree, last⟩ := res
      · obtain ⟨rfl, -⟩ := hA.none rfl
        exact .nothing
      · obtain ⟨hadd, hacc⟩ := hA.some x y rfl
        simp only [wp_bind, wp_update]
        exact allocated_spec ⟨x, y, w, h⟩ rfl rfl rfl (.inl ⟨hx, hy⟩) hadd hacc

theorem triadsFor_int {n : ℤ} (h : n.natAbs < floatLimit) :
    triadsFor (.int n) = .ok (n, AreaToRect.ceilDiv n 3) := by
  change (if floatLimit ≤ n.natAbs then _ else _ : Except Error (ℤ × ℤ)) = _
  exact if_neg (not_le.mpr h)

theorem triadsFor_overflow {n : ℤ} (h : floatLimit ≤ n.natAbs) :
    triadsFor (.int n) = .error (.overflowError "int too large to convert to float") := by
  change (if floatLimit ≤ n.natAbs then _ else _ : Except Error (ℤ × ℤ)) = _
  exact if_pos h

theorem allocBoards_spec (ht : a.packTree.Valid) (hy : r.y = .none) {c : Constraints}
    (hg : r.Good → ∃ n q, r.x = .int n ∧ n.natAbs < floatLimit ∧ c.minRatio = some q ∧ 0 ≤ q) :
    Ends a r (allocBoards r.x c) := by
  simp only [Ends, allocBoards, wp_bind, wp_state]
  cases hx : r.x with
  | none => exact .refused (fun hr => by simp [hx] at hg; exact hg hr) trivial
  | other t => exact .refused (fun hr => by simp [hx] at hg; exact hg hr) trivial
  | int n =>
    by_cases hlimit : floatLimit ≤ n.natAbs
    · rw [triadsFor_overflow hlimit]
      refine .refused (fun hr => ?_) trivial
      obtain ⟨m, -, hm, hlt, -⟩ := hg hr
      obtain rfl : n = m := Value.int.inj (hx.symm.trans hm)
      exact absurd hlimit (not_le.mpr hlt)
    rw [triadsFor_int (not_le.mp hlimit), wp_ofExcept_ok]
    dsimp only
    split
    · exact .nothing
    next hn =>
    rw [not_le] at hn
    split
    · exact .nothing
    have hA := PackTree.allocArea_spec (some (a.candidateFilter c (some n)).call)
      (AreaToRect.ceilDiv n 3) c.minRatio ht none
    have hok : r.Good → ∃ xywh, (a.packTree.allocArea
        (some (a.candidateFilter c (some n)).call) (AreaToRect.ceilDiv n 3) c.minRatio none).1 =
        .ok xywh := by
      intro hr
      obtain ⟨-, q, -, -, hq, hq0⟩ := hg hr
      rw [hq]
      exact PackTree.allocArea_ok _ hn hq0 ht _
    generalize a.packTree.allocArea (some (a.candidateFilter c (some n)).call)
      (AreaToRect.ceilDiv n 3) c.minRatio none = res at hA hok ⊢
    obtain ⟨e | _ | ⟨x, y, w, h⟩, tree, last⟩ := res
    · obtain ⟨rfl, he⟩ := hA.error e rfl
      refine .refused (fun hr => ?_) he
      obtain ⟨_, he⟩ := hok hr
      cases he
    · obtain ⟨rfl, -⟩ := hA.none rfl
      exact .nothing
    · obtain ⟨harea, hadd, hacc⟩ := hA.some x y w h rfl
      have hn3 : n ≤ AreaToRect.ceilDiv n 3 * 3 := AreaToRect.le_ceilDiv_mul (by decide)
      simp only [wp_bind, wp_update, wp_ofExcept_ok]
      refine allocated_spec ⟨x, y, w, h⟩ rfl rfl rfl (.inr ⟨n, hx, hy, ?_⟩) hadd hacc
      dsimp only [Region.area]
      omega

/-- `alloc` after `check_free`. -/
def allocate (r : Request) : Prog Error Allocator (Option Allocation) := do
  match ← ofExcept r.allocType with
  | .board => allocBoard r.x r.y r.z r.torus 2
  | .boards =>
    let (boards, c) ← ofExcept (r.bindBoards.mapError (· "_alloc_boards"))
    allocBoards boards c
  | .triads =>
    let (width, height, c) ← ofExcept (r.bindTriads.mapError (· "_alloc_triads"))
    allocTriads width height c

theorem alloc_eq (r : Request) : alloc r = checkFree >>= fun _ => allocate r := rfl

theorem allocate_spec (ht : a.packTree.Valid) (r : Request) : Ends a r (allocate r) := by
  unfold Ends allocate
  rw [wp_bind]
  cases hty : r.allocType with
  | error e => exact .refused (by simp [Request.Good, hty]) (allocType_error hty)
  | ok type =>
    rw [wp_ofExcept_ok]
    cases type with
    | board => exact allocBoard_spec ht hty
    | boards =>
      dsimp only
      rw [wp_bind]
      cases hb : r.bindBoards with
      | error e => exact .refused (by simp [Request.Good, hty, hb]) (bindBoards_error hb _)
      | ok nc =>
        obtain ⟨n, c⟩ := nc
        obtain rfl := (bindBoards_ok hb).1
        refine allocBoards_spec ht (allocType_boards hty) fun hg => ?_
        simp only [Request.Good, hty, hb, Except.ok.injEq, Prod.mk.injEq] at hg
        obtain ⟨m, c', q, ⟨hm, rfl⟩, hlt, hq⟩ := hg
        exact ⟨m, q, hm, hlt, hq⟩
    | triads =>
      dsimp only
      rw [wp_bind]
      cases hb : r.bindTriads with
      | error e => exact .refused (by simp [Request.Good, hty, hb]) (bindTriads_error hb _)
      | ok whc =>
        obtain ⟨w, h, c⟩ := whc
        obtain ⟨rfl, rfl⟩ := bindTriads_ok hb
        refine allocTriads_spec ht fun hg => ?_
        simp only [Request.Good, hty, hb, Except.ok.injEq, Prod.mk.injEq] at hg
        obtain ⟨w', h', c', hw, hh, -⟩ := hg
        exact ⟨w', h', hw, hh⟩

end Allocator

end SpallocServer
