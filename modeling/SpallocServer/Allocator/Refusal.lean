import SpallocServer.Allocator.Registry

namespace SpallocServer

open Foundation Prog

namespace PackTree

variable {σ : Type}

theorem alloc_none (f : Option (Filter σ)) (w h : ℤ) (t : PackTree) (s : σ) :
    (alloc f w h t s).1 = none → (alloc f w h t s).2.1 = t := by
  induction t generalizing s with
  | leaf r al =>
    unfold alloc
    split
    · exact fun _ => rfl
    split
    · exact fun _ => rfl
    generalize findAcceptable r w h f s = res
    obtain ⟨_ | ⟨x, y⟩, s'⟩ := res
    · exact fun _ => rfl
    · simp
  | node r al a b iha ihb =>
    unfold alloc
    split
    · exact fun _ => rfl
    split
    · exact fun _ => rfl
    split
    · have ha := iha s
      generalize alloc f w h a s = res at ha ⊢
      obtain ⟨_ | xy, a', s'⟩ := res
      · intro hn
        exact congrArg₂ (node r al) (ha rfl) (ihb s' hn)
      · simp
    · have hb := ihb s
      generalize alloc f w h b s = res at hb ⊢
      obtain ⟨_ | xy, b', s'⟩ := res
      · intro hn
        exact congrArg₂ (node r al) (iha s' hn) (hb rfl)
      · simp

theorem allocArea_none (f : Option (Filter σ)) (area : ℤ) (minRatio : Option ℚ) (t : PackTree)
    (s : σ) :
    (allocArea f area minRatio t s).1 = .ok none → (allocArea f area minRatio t s).2.1 = t := by
  induction t generalizing s with
  | leaf r al =>
    unfold allocArea
    split
    · exact fun _ => rfl
    split
    · exact fun _ => rfl
    cases AreaToRect.areaToRect area r.width r.height minRatio with
    | error e => exact fun _ => rfl
    | ok wh =>
      cases wh with
      | none => exact fun _ => rfl
      | some wh =>
        obtain ⟨w, h⟩ := wh
        have halloc := alloc_none f w h (.leaf r al) s
        dsimp only
        generalize alloc f w h (.leaf r al) s = res at halloc ⊢
        obtain ⟨_ | ⟨x, y⟩, t, s'⟩ := res
        · exact fun _ => halloc rfl
        · simp
  | node r al a b iha ihb =>
    unfold allocArea
    split
    · exact fun _ => rfl
    split
    · exact fun _ => rfl
    split
    · have ha := iha s
      generalize allocArea f area minRatio a s = res at ha ⊢
      obtain ⟨e | _ | xywh, a', s'⟩ := res
      · simp
      · intro hn
        exact congrArg₂ (node r al) (ha rfl) (ihb s' hn)
      · simp
    · have hb := ihb s
      generalize allocArea f area minRatio b s = res at hb ⊢
      obtain ⟨e | _ | xywh, b', s'⟩ := res
      · simp
      · intro hn
        exact congrArg₂ (node r al) (iha s' hn) (hb rfl)
      · simp

theorem requestLeaf_cases (x y : ℤ) {n : ℕ} {r : Region} {al : Bool}
    (hn : r.width + r.height ≤ n) :
    requestLeaf x y n r al = (none, .leaf r al) ∨
      ∃ t, requestLeaf x y n r al = (some (x, y), t) := by
  by_cases hc : (x, y) ∈ r.cells ∧ al = false
  · obtain ⟨hc, rfl⟩ := hc
    have hr : r.Positive := by
      rw [Region.mem_cells] at hc
      exact ⟨by omega, by omega⟩
    obtain ⟨t, ht, -⟩ := requestLeaf_some hr hn hc
    exact .inr ⟨t, ht⟩
  · refine .inl (requestLeaf_none n ?_)
    by_cases hcell : (x, y) ∈ r.cells
    · exact .inr (by simpa using fun h => hc ⟨hcell, h⟩)
    · exact .inl hcell

theorem request_cases (x y : ℤ) (t : PackTree) :
    request x y t = (none, t) ∨ ∃ t', request x y t = (some (x, y), t') := by
  induction t with
  | leaf r al => exact requestLeaf_cases x y (Int.self_le_toNat _)
  | node r al a b iha ihb =>
    unfold request
    split
    · exact .inl rfl
    obtain ha | ⟨a', ha⟩ := iha
    · rw [ha]
      obtain hb | ⟨b', hb⟩ := ihb
      · rw [hb]
        exact .inl rfl
      · rw [hb]
        exact .inr ⟨_, rfl⟩
    · rw [ha]
      exact .inr ⟨_, rfl⟩

end PackTree

namespace Allocator

variable {a b : Allocator} {r : Request}

def Refuses (a : Allocator) (res : Option Allocation) (b : Allocator) : Prop :=
  res = none → b = a

theorem allocated_refuses (xy : ℤ × ℤ) (last : Option Candidate) :
    wp (allocated xy last) (fun res _ => res ≠ none) (fun _ _ => True) b := by
  cases last with
  | none => trivial
  | some c => exact nofun

theorem allocTriads_refuses (width height : Value) (c : Constraints) :
    wp (allocTriads width height c) (Refuses a) (fun _ _ => True) a := by
  simp only [allocTriads, wp_bind, wp_state]
  split
  · exact fun _ => rfl
  rw [wp_bind]
  cases width.against "<=" with
  | error e => trivial
  | ok w =>
    rw [wp_ofExcept_ok]
    split
    · exact fun _ => rfl
    rw [wp_bind]
    cases height.against "<=" with
    | error e => trivial
    | ok v =>
      rw [wp_ofExcept_ok]
      split
      · exact fun _ => rfl
      have htree := PackTree.alloc_none (some (a.candidateFilter c none).call) w v a.packTree none
      generalize a.packTree.alloc (some (a.candidateFilter c none).call) w v none = res
        at htree ⊢
      obtain ⟨_ | xy, tree, last⟩ := res
      · intro _
        obtain rfl := htree rfl
        rfl
      · apply (allocated_refuses xy last).mono _ fun _ _ _ => trivial
        exact fun _ _ hne hn => absurd hn hne

theorem allocBoards_refuses (boards : Value) (c : Constraints) :
    wp (allocBoards boards c) (Refuses a) (fun _ _ => True) a := by
  simp only [allocBoards, wp_bind, wp_state]
  cases triadsFor boards with
  | error e => trivial
  | ok res =>
    obtain ⟨n, triads⟩ := res
    rw [wp_ofExcept_ok]
    dsimp only
    split
    · exact fun _ => rfl
    split
    · exact fun _ => rfl
    have htree := PackTree.allocArea_none (some (a.candidateFilter c (some n)).call) triads
      c.minRatio a.packTree none
    generalize a.packTree.allocArea (some (a.candidateFilter c (some n)).call) triads
      c.minRatio none = res at htree ⊢
    obtain ⟨e | _ | ⟨x, y, w, v⟩, tree, last⟩ := res
    · trivial
    · intro _
      obtain rfl := htree rfl
      rfl
    · apply (allocated_refuses (x, y) last).mono _ fun _ _ _ => trivial
      exact fun _ _ hne hn => absurd hn hne

theorem take_refuses (d : Board) :
    wp (some <$> take d) (fun res _ => res ≠ none) (fun _ _ => True) a := by
  rw [wp_map]
  simp only [take, wp_bind, wp_state]
  split
  · trivial
  · intro h
    cases h

theorem allocBoard_some (hc : Checked a r) {d : Board} (hs : a.spare r.x r.y r.z = some d)
    (n : ℕ) : wp (allocBoard r.x r.y r.z r.torus (n + 1)) (fun res _ => res ≠ none)
      (fun _ _ => True) a := by
  unfold wp
  rw [allocBoard_succ hc, hs]
  exact take_refuses d

theorem spare_opened_any {xy : ℤ × ℤ} {tree : PackTree} (hy : r.y = .none)
    (hs : a.spare r.x r.y r.z = none) : ∃ d, (a.opened xy tree).spare r.x r.y r.z = some d := by
  have hkeys : a.singleBoardTriads.keys = [] := by
    unfold spare at hs
    rw [if_pos hy] at hs
    cases hk : a.singleBoardTriads.keys with
    | nil => rfl
    | cons xy rest => simp [hk] at hs
  have hopened : (a.opened xy tree).singleBoardTriads.keys = [xy] :=
    Dict.keys_set_of_nil hkeys xy _
  rw [spare, if_pos hy, hopened]
  exact ⟨_, rfl⟩

theorem spare_opened_named {x y z : ℤ} (tree : PackTree) (hz : 0 ≤ z ∧ z < 3)
    (hdead : (x, y, z) ∉ a.deadBoards) :
    (a.opened (x, y) tree).spare (.int x) (.int y) (.int z) = some (x, y, z) := by
  rw [spare, if_neg (by simp)]
  simp only [toBoard]
  rw [if_pos]
  rw [available_opened_self]
  exact mem_working.mpr ⟨hz, hdead⟩

theorem allocBoard_refuses (hty : r.allocType = .ok .board) (hgood : r.Good) :
    wp (allocBoard r.x r.y r.z r.torus 2) (Refuses a) (fun _ _ => True) a := by
  obtain ⟨htorus, hargs, hnamed⟩ : r.torus = .false ∧ boardArgs r.x r.y r.z ∧
      (r.y ≠ .none → ∃ x y z, r.x = .int x ∧ r.y = .int y ∧ r.z = .int z ∧ 0 ≤ z ∧ z < 3) := by
    simpa only [Request.Good, hty] using hgood
  by_cases hdead : r.y ≠ .none ∧ a.isDead r.x r.y r.z = true
  · simp only [allocBoard, wp_bind, wp_state]
    split
    · trivial
    · exact fun _ => rfl
  have hc (b : Allocator) (hb : b.deadBoards = a.deadBoards) : Checked b r := by
    refine ⟨htorus, hargs, fun hy => ?_⟩
    have hsame : b.isDead r.x r.y r.z = a.isDead r.x r.y r.z := by
      unfold isDead
      rw [hb]
    rw [hsame]
    simpa using fun h => hdead ⟨hy, h⟩
  cases hs : a.spare r.x r.y r.z with
  | some d =>
    apply (allocBoard_some (hc a rfl) hs 1).mono _ fun _ _ _ => trivial
    exact fun _ _ hne hn => absurd hn hne
  | none =>
    have hopened (xy : ℤ × ℤ) (tree : PackTree)
        (hd : ∃ d, (a.opened xy tree).spare r.x r.y r.z = some d) :
        wp (allocBoard r.x r.y r.z r.torus 1) (Refuses a) (fun _ _ => True)
          (a.opened xy tree) := by
      obtain ⟨d, hd⟩ := hd
      apply (allocBoard_some (hc (a.opened xy tree) rfl) hd 0).mono _ fun _ _ _ => trivial
      exact fun _ _ hne hn => absurd hn hne
    unfold wp
    rw [allocBoard_succ (hc a rfl), hs]
    change wp _ _ _ a
    by_cases hy : r.y = .none
    · simp only [hy, ne_eq, not_true_eq_false, if_false, allocTriad, wp_bind, wp_state, wp_update]
      have htree := PackTree.alloc_none (some a.hasAtLeastOneWorkingBoard) 1 1 a.packTree ()
      generalize a.packTree.alloc (some a.hasAtLeastOneWorkingBoard) 1 1 () = res at htree ⊢
      obtain ⟨_ | xy, tree, s⟩ := res
      · intro _
        obtain rfl := htree rfl
        rfl
      · have h := hopened xy tree (spare_opened_any hy hs)
        rw [hy] at h
        exact h
    · obtain ⟨x, y, z, hx, hy', hz, hz3⟩ := hnamed hy
      have halive : (x, y, z) ∉ a.deadBoards := by
        intro hd
        apply hdead
        refine ⟨hy, ?_⟩
        rw [hx, hy', hz]
        exact decide_eq_true hd
      simp only [hx, hy', hz, reduceCtorEq, ne_eq, not_false_eq_true, if_true, request, wp_bind,
        wp_state, Value.above, Value.num, wp_ofExcept_ok]
      split
      · exact fun _ => rfl
      simp only [wp_bind, wp_update, wp_ofExcept_ok]
      obtain hn | ⟨tree, ht⟩ := PackTree.request_cases x y a.packTree
      · rw [hn]
        exact fun _ => rfl
      · rw [ht]
        have hspare := spare_opened_named tree hz3 halive
        rw [← hx, ← hy', ← hz] at hspare
        have h := hopened (x, y) tree ⟨_, hspare⟩
        rw [hx, hy', hz] at h
        exact h

theorem allocate_refuses (hgood : r.Good) :
    wp (allocate r) (Refuses a) (fun _ _ => True) a := by
  unfold allocate
  rw [wp_bind]
  cases hty : r.allocType with
  | error e => trivial
  | ok type =>
    rw [wp_ofExcept_ok]
    cases type with
    | board => exact allocBoard_refuses hty hgood
    | boards =>
      dsimp only
      rw [wp_bind]
      cases r.bindBoards with
      | error e => trivial
      | ok nc => exact allocBoards_refuses nc.1 nc.2
    | triads =>
      dsimp only
      rw [wp_bind]
      cases r.bindTriads with
      | error e => trivial
      | ok whc => exact allocTriads_refuses whc.1 whc.2.1 whc.2.2

def timed (a : Allocator) (clock : ℕ → ℤ) (reads : ℕ) : Allocator :=
  { a with clock := clock, reads := reads }

def Timeless {α : Type} (m : Prog Error Allocator α) : Prop :=
  ∀ a clock reads, m.run (a.timed clock reads) = ((m.run a).1, (m.run a).2.timed clock reads)

section Timeless

variable {α β : Type}

theorem timeless_pure (x : α) : Timeless (pure x : Prog Error Allocator α) := fun _ _ _ => rfl

theorem timeless_raise (e : Error) : Timeless (raise e : Prog Error Allocator α) :=
  fun _ _ _ => rfl

theorem timeless_bind {m : Prog Error Allocator α} {f : α → Prog Error Allocator β}
    (hm : Timeless m) (hf : ∀ x, Timeless (f x)) : Timeless (m >>= f) := by
  intro a clock reads
  rw [run_bind, run_bind, hm]
  obtain ⟨e | x, b⟩ := m.run a
  · rfl
  · exact hf x b clock reads

theorem timeless_state {f : Allocator → Prog Error Allocator α}
    (hread : ∀ a clock reads, f (a.timed clock reads) = f a) (hf : ∀ a, Timeless (f a)) :
    Timeless (state >>= f) := by
  intro a clock reads
  change (f (a.timed clock reads)).run _ = (((f a).run a).1, ((f a).run a).2.timed clock reads)
  rw [hread]
  exact hf a a clock reads

theorem timeless_update {f : Allocator → Allocator}
    (hf : ∀ a clock reads, f (a.timed clock reads) = (f a).timed clock reads) :
    Timeless (update f) := by
  intro a clock reads
  exact congrArg (Prod.mk (Except.ok ())) (hf a clock reads)

theorem timeless_ofExcept (x : Except Error α) :
    Timeless (ofExcept x : Prog Error Allocator α) := fun _ _ _ => rfl

theorem timeless_ite {c : Prop} [Decidable c] {m m' : Prog Error Allocator α} (hm : Timeless m)
    (hm' : Timeless m') : Timeless (if c then m else m') := by
  split
  · exact hm
  · exact hm'

end Timeless

theorem register_timeless (type : AllocationType) (d : Board) : Timeless (register type d) :=
  fun _ _ _ => rfl

theorem allocated_timeless (xy : ℤ × ℤ) (last : Option Candidate) :
    Timeless (allocated xy last) := by
  cases last with
  | none => exact timeless_raise _
  | some c => exact timeless_bind (register_timeless _ _) fun _ => timeless_pure _

theorem allocTriads_timeless (width height : Value) (c : Constraints) :
    Timeless (allocTriads width height c) := by
  apply timeless_state
  · exact fun _ _ _ => rfl
  intro a
  apply timeless_ite (timeless_pure _)
  apply timeless_bind (timeless_ofExcept _)
  intro w
  apply timeless_ite (timeless_pure _)
  apply timeless_bind (timeless_ofExcept _)
  intro h
  apply timeless_ite (timeless_pure _)
  generalize a.packTree.alloc (some (a.candidateFilter c none).call) w h none = res
  obtain ⟨xy, tree, last⟩ := res
  apply timeless_bind (timeless_update fun _ _ _ => rfl)
  intro _
  cases xy with
  | none => exact timeless_pure _
  | some xy => exact allocated_timeless xy last

theorem allocBoards_timeless (boards : Value) (c : Constraints) :
    Timeless (allocBoards boards c) := by
  apply timeless_state
  · exact fun _ _ _ => rfl
  intro a
  apply timeless_bind (timeless_ofExcept _)
  intro nt
  obtain ⟨n, triads⟩ := nt
  apply timeless_ite (timeless_pure _)
  apply timeless_ite (timeless_pure _)
  generalize a.packTree.allocArea (some (a.candidateFilter c (some n)).call) triads
    c.minRatio none = res
  obtain ⟨xywh, tree, last⟩ := res
  apply timeless_bind (timeless_update fun _ _ _ => rfl)
  intro _
  apply timeless_bind (timeless_ofExcept _)
  intro xywh
  cases xywh with
  | none => exact timeless_pure _
  | some q => exact allocated_timeless _ last

theorem request_timeless (x y : Value) : Timeless (request x y) := by
  apply timeless_state
  · exact fun _ _ _ => rfl
  intro a
  apply timeless_bind (timeless_ofExcept _)
  intro x
  apply timeless_ite (timeless_pure _)
  apply timeless_bind (timeless_ofExcept _)
  intro y
  exact timeless_bind (timeless_update fun _ _ _ => rfl) fun _ => timeless_pure _

theorem allocTriad_timeless : Timeless allocTriad := by
  apply timeless_state
  · exact fun _ _ _ => rfl
  intro a
  exact timeless_bind (timeless_update fun _ _ _ => rfl) fun _ => timeless_pure _

theorem take_timeless (d : Board) : Timeless (take d) := by
  apply timeless_state
  · exact fun _ _ _ => rfl
  intro a
  apply timeless_ite (timeless_raise _)
  apply timeless_bind (timeless_update fun _ _ _ => rfl)
  intro _
  exact timeless_bind (register_timeless _ _) fun _ => timeless_pure _

theorem allocBoard_timeless (x y z : Value) (torus : Flag) (n : ℕ) :
    Timeless (allocBoard x y z torus n) := by
  induction n with
  | zero => exact timeless_pure _
  | succ n ih =>
    apply timeless_state
    · exact fun _ _ _ => rfl
    intro a
    apply timeless_ite (timeless_raise _)
    apply timeless_ite (timeless_raise _)
    apply timeless_ite (timeless_pure _)
    cases a.spare x y z with
    | some d => exact timeless_bind (take_timeless d) fun _ => timeless_pure _
    | none =>
      apply timeless_bind (timeless_ite (request_timeless x y) allocTriad_timeless)
      intro xy
      cases xy with
      | none => exact timeless_pure _
      | some xy => exact timeless_bind (timeless_update fun _ _ _ => rfl) fun _ => ih

theorem allocate_timeless (r : Request) : Timeless (allocate r) := by
  apply timeless_bind (timeless_ofExcept _)
  intro type
  cases type with
  | board => exact allocBoard_timeless _ _ _ _ 2
  | boards => exact timeless_bind (timeless_ofExcept _) fun nc => allocBoards_timeless nc.1 nc.2
  | triads =>
    exact timeless_bind (timeless_ofExcept _) fun whc =>
      allocTriads_timeless whc.1 whc.2.1 whc.2.2

def Still (a : Allocator) (t : ℤ) : Prop :=
  ∀ e rest, a.toFree = e :: rest → t - e.time < a.secondsBeforeFree * 1000000

def Denies (a : Allocator) (r : Request) : Prop := (allocate r).run a = (.ok none, a)

theorem Denies.timed (h : a.Denies r) (clock : ℕ → ℤ) (reads : ℕ) :
    (a.timed clock reads).Denies r := by
  unfold Denies
  rw [allocate_timeless, h]

theorem freeNext_tail (a : Allocator) :
    wp freeNext (fun _ b => b.toFree = a.toFree.tail) (fun _ _ => True) a := by
  have htriads (x y : ℤ) (l : List ToFree) (b : Allocator) (hb : b.toFree = l) :
      wp (freeTriads x y) (fun _ c => c.toFree = l) (fun _ _ => True) b := by
    simp only [freeTriads, wp_bind, wp_state]
    cases b.packTree.free x y with
    | error e => trivial
    | ok tree => exact hb
  simp only [freeNext, wp_bind, wp_state]
  cases a.toFree with
  | nil => trivial
  | cons e rest =>
    obtain ⟨time, type, x, y, z⟩ := e
    dsimp only
    rw [wp_bind, wp_update]
    cases type with
    | boards => trivial
    | triads => exact htriads x y rest _ rfl
    | board =>
      dsimp only
      simp only [returnBoard, wp_bind, wp_update, wp_state]
      cases (reopened { a with toFree := rest } (x, y)).singleBoardTriads.get? (x, y) with
      | none => trivial
      | some free =>
        simp only [wp_bind, wp_update, wp_pure]
        split
        · exact htriads x y rest _ rfl
        · rfl

theorem checkFree_still {t : ℤ} (hclock : a.clock = fun _ => t) :
    wp checkFree (fun changed b => b.Still t ∧
        (changed = false → ∃ reads, b = a.timed a.clock reads)) (fun _ _ => True) a := by
  have hloop (n : ℕ) (changed : Bool) (b : Allocator) (hb : b.clock = fun _ => t)
      (hn : b.toFree.length ≤ n) :
      wp (checkFreeLoop changed n) (fun res c => c.Still t ∧
        (res = false → changed = false ∧ ∃ reads, c = b.timed b.clock reads))
        (fun _ _ => True) b := by
    induction n generalizing b changed with
    | zero =>
      have hq : b.toFree = [] := List.length_eq_zero_iff.mp (Nat.le_zero.mp hn)
      refine ⟨fun e rest he => ?_, fun hc => ⟨hc, b.reads, rfl⟩⟩
      rw [hq] at he
      cases he
    | succ n ih =>
      simp only [checkFreeLoop, wp_bind, wp_state]
      cases hq : b.toFree with
      | nil =>
        refine ⟨fun e rest he => ?_, fun hc => ⟨hc, b.reads, rfl⟩⟩
        rw [hq] at he
        cases he
      | cons e rest =>
        simp only [now, wp_bind, wp_state, wp_update, wp_pure]
        split
        · next hearly =>
          refine ⟨fun e' rest' he => ?_, fun hc => ⟨hc, b.reads + 1, rfl⟩⟩
          obtain ⟨rfl, -⟩ := List.cons.inj (hq.symm.trans he)
          rwa [hb] at hearly
        · rw [wp_bind]
          apply ((freeNext_tail b.ticked).and (freeNext_passes b.ticked)).mono _
            fun _ _ _ => trivial
          rintro _ c ⟨htail, hpass⟩
          have hlen : c.toFree.length ≤ n := by
            have hrest : c.toFree = rest := by
              rw [htail]
              exact congrArg List.tail hq
            rw [hq, List.length_cons] at hn
            rw [hrest]
            omega
          apply (ih true c (hpass.setup.clock.trans hb) hlen).mono _ fun _ _ _ => trivial
          rintro res d ⟨hstill, hres⟩
          exact ⟨hstill, fun hf => absurd (hres hf).1 (by simp)⟩
  apply (hloop _ false a hclock le_rfl).mono _ fun _ _ _ => trivial
  exact fun res b hb => ⟨hb.1, fun hres => (hb.2 hres).2⟩

theorem checkFree_of_still {t : ℤ} (hclock : a.clock = fun _ => t) (h : a.Still t) :
    ∃ reads, checkFree.run a = (.ok false, a.timed a.clock reads) := by
  cases hq : a.toFree with
  | nil =>
    refine ⟨a.reads, ?_⟩
    change (checkFreeLoop false a.toFree.length).run a = _
    rw [hq]
    rfl
  | cons e rest =>
    refine ⟨a.reads + 1, ?_⟩
    have hearly : a.clock a.reads - e.time < a.secondsBeforeFree * 1000000 := by
      rw [hclock]
      exact h e rest hq
    have hloop : wp (checkFreeLoop false (rest.length + 1))
        (fun res b => res = false ∧ b = a.timed a.clock (a.reads + 1)) (fun _ _ => False) a := by
      simp only [checkFreeLoop, wp_bind, wp_state, hq, now, wp_update, wp_pure, if_pos hearly]
      exact ⟨trivial, by rw [Allocator.timed, hq]⟩
    obtain ⟨_, _, hrun, rfl, rfl⟩ := wp_returns hloop
    change (checkFreeLoop false a.toFree.length).run a = _
    rw [hq]
    exact hrun

theorem alloc_refused {t : ℤ} (hclock : a.clock = fun _ => t) (hgood : r.Good) :
    wp (alloc r) (fun res b => res = none → b.Still t ∧ b.Denies r) (fun _ _ => True) a := by
  rw [alloc_eq, wp_bind]
  apply (checkFree_still hclock).mono _ fun _ _ _ => trivial
  rintro _ b ⟨hstill, -⟩
  have hrefuses := allocate_refuses (a := b) hgood
  unfold wp at hrefuses ⊢
  cases hrun : (allocate r).run b with
  | mk res c =>
    rw [hrun] at hrefuses
    cases res with
    | error e => trivial
    | ok res =>
      intro hnone
      obtain rfl : c = b := hrefuses hnone
      refine ⟨hstill, ?_⟩
      rw [Denies, hrun, hnone]

theorem alloc_denied {t : ℤ} (hclock : a.clock = fun _ => t) (hstill : a.Still t)
    (hd : a.Denies r) : ∃ b, (alloc r).run a = (.ok none, b) := by
  obtain ⟨reads, hsweep⟩ := checkFree_of_still hclock hstill
  have hdenied := hd.timed a.clock reads
  refine ⟨a.timed a.clock reads, ?_⟩
  rw [alloc_eq, run_bind, hsweep]
  exact hdenied

end Allocator

end SpallocServer
