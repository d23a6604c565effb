import SpallocServer.Foundation.Relational
import SpallocServer.PackTree.Refinement
import SpallocServer.Allocator.Registry
import SpallocServer.Allocator.Reservation

namespace SpallocServer

open Foundation Prog Allocator Ledger

namespace Allocator

variable {a b : Allocator} {r : Request} {p : ℤ × ℤ}

theorem freeNext_tree (h : a.packTree.Valid) :
    wp freeNext (fun _ b => b.packTree.Valid) (fun _ b => b.packTree.Valid) a := by
  have htriads (b : Allocator) (x y : ℤ) (hb : b.packTree.Valid) :
      wp (freeTriads x y) (fun _ b => b.packTree.Valid) (fun _ b => b.packTree.Valid) b := by
    simp only [freeTriads, wp_bind, wp_state]
    have hspec := PackTree.free_spec x y hb
    cases hfree : b.packTree.free x y with
    | error e => exact hb
    | ok tree =>
      obtain ⟨_, _, _, _, hrem⟩ := hspec.ok tree hfree
      exact hrem.valid
  simp only [freeNext, wp_bind, wp_state]
  cases a.toFree with
  | nil => exact h
  | cons e rest =>
    obtain ⟨time, type, x, y, z⟩ := e
    dsimp only
    rw [wp_bind, wp_update]
    cases type with
    | boards => exact h
    | triads => exact htriads { a with toFree := rest } x y h
    | board =>
      dsimp only
      have hreturn : wp (returnBoard (x, y) z) (fun _ b => b.packTree.Valid)
          (fun _ b => b.packTree.Valid) { a with toFree := rest } := by
        simp only [returnBoard, wp_bind, wp_update, wp_state]
        cases (reopened { a with toFree := rest } (x, y)).singleBoardTriads.get? (x, y) with
        | none => exact h
        | some free => exact h
      rw [wp_bind]
      apply hreturn.mono _ fun _ _ hb => hb
      intro free b hb
      split
      · rw [wp_bind, wp_update]
        exact htriads (b.closed (x, y)) x y hb
      · exact hb

theorem checkFree_tree (h : a.packTree.Valid) :
    wp checkFree (fun _ b => b.packTree.Valid) (fun _ b => b.packTree.Valid) a := by
  have hloop (n : ℕ) (changed : Bool) (a : Allocator) (h : a.packTree.Valid) :
      wp (checkFreeLoop changed n) (fun _ b => b.packTree.Valid) (fun _ b => b.packTree.Valid)
        a := by
    induction n generalizing a changed with
    | zero => exact h
    | succ n ih =>
      simp only [checkFreeLoop, wp_bind, wp_state]
      cases a.toFree with
      | nil => exact h
      | cons e rest =>
        simp only [now, wp_bind, wp_state, wp_update, wp_pure]
        split
        · exact h
        · rw [wp_bind]
          apply (freeNext_tree (a := a.ticked) h).mono _ fun _ _ hb => hb
          exact fun _ b hb => ih true b hb
  exact hloop _ false a h

theorem Outcome.tree {res : Except Error (Option Allocation)} (h : a.packTree.Valid)
    (ho : Outcome a r res b) : b.packTree.Valid := by
  cases ho with
  | triads _ _ _ _ hadd _ _ => exact hadd.valid
  | fresh hadd _ _ => exact hadd.valid
  | leaked hadd _ _ _ => exact hadd.valid
  | refused _ _ => exact h
  | starved _ => exact h
  | nothing => exact h
  | spare _ _ => exact h

def AsksAny (r : Request) : Prop :=
  r.allocType = .ok .board ∧ r.torus = .false ∧ boardArgs r.x r.y r.z ∧ r.y = .none

instance (r : Request) : Decidable (AsksAny r) := inferInstanceAs (Decidable (_ ∧ _ ∧ _ ∧ _))

def firstFree (a : Allocator) : Finset Board :=
  match a.singleBoardTriads.keys with
  | [] => ∅
  | xy :: _ => (a.available xy).image fun z => (xy.1, xy.2, z)

/-- The board that such a request takes. -/
def next (a : Allocator) (r : Request) : Option Board :=
  if AsksAny r then
    (a.spare r.x r.y r.z).filter fun b => b.2.2 ∈ a.available (b.1, b.2.1)
  else none

def Alive (a : Allocator) (res : Option Allocation) : Prop :=
  ∀ al, res = some al → ∀ b ∈ al.boards, b ∉ a.deadBoards

theorem alive_none : a.Alive none := by
  intro al h
  cases h

theorem allocated_alive {f : CandidateFilter} (rect : Region) (hpos : rect.Positive)
    {last : Option Candidate} (hd : f.deadBoards = a.deadBoards)
    (hacc : PackTree.Accepted (some f.call) rect.x rect.y rect.width rect.height none last) :
    wp (allocated (rect.x, rect.y) last) (fun res _ => a.Alive res) (fun _ _ => True) b := by
  obtain ⟨s, -, hcall⟩ := hacc
  obtain ⟨torus, rfl, -⟩ := CandidateFilter.call_spec hcall
  intro al hal d hmem
  obtain rfl := Option.some.inj hal
  rw [← hd]
  exact (CandidateFilter.mem_enumerateBoards hpos.1 hpos.2 hmem).2

theorem allocTriads_alive (h : a.packTree.Valid) (width height : Value) (c : Constraints) :
    wp (allocTriads width height c) (fun res _ => a.Alive res) (fun _ _ => True) a := by
  simp only [allocTriads, wp_bind, wp_state]
  split
  · exact alive_none
  rw [wp_bind]
  cases width.against "<=" with
  | error e => trivial
  | ok w =>
    rw [wp_ofExcept_ok]
    split
    · exact alive_none
    next hw =>
    rw [wp_bind]
    cases height.against "<=" with
    | error e => trivial
    | ok v =>
      rw [wp_ofExcept_ok]
      split
      · exact alive_none
      next hv =>
      have hspec := PackTree.alloc_spec (some (a.candidateFilter c none).call) (not_le.mp hw)
        (not_le.mp hv) h none
      generalize a.packTree.alloc (some (a.candidateFilter c none).call) w v none = res
        at hspec ⊢
      obtain ⟨_ | ⟨x, y⟩, tree, last⟩ := res
      · exact alive_none
      · obtain ⟨-, hacc⟩ := hspec.some x y rfl
        exact allocated_alive ⟨x, y, w, v⟩ ⟨not_le.mp hw, not_le.mp hv⟩ rfl hacc

theorem allocBoards_alive (h : a.packTree.Valid) (boards : Value) (c : Constraints) :
    wp (allocBoards boards c) (fun res _ => a.Alive res) (fun _ _ => True) a := by
  simp only [allocBoards, wp_bind, wp_state]
  cases triadsFor boards with
  | error e => trivial
  | ok res =>
    obtain ⟨n, triads⟩ := res
    rw [wp_ofExcept_ok]
    dsimp only
    split
    · exact alive_none
    split
    · exact alive_none
    have hspec := PackTree.allocArea_spec (some (a.candidateFilter c (some n)).call) triads
      c.minRatio h none
    generalize a.packTree.allocArea (some (a.candidateFilter c (some n)).call) triads
      c.minRatio none = res at hspec ⊢
    obtain ⟨e | _ | ⟨x, y, w, v⟩, tree, last⟩ := res
    · trivial
    · exact alive_none
    · obtain ⟨-, hadd, hacc⟩ := hspec.some x y w v rfl
      have hpos := hadd.valid.allocated_positive ((hadd.mem ⟨x, y, w, v⟩).mpr (.inl rfl))
      exact allocated_alive ⟨x, y, w, v⟩ hpos rfl hacc

theorem take_alive {d : Board} (hs : a.spare r.x r.y r.z = some d) :
    wp (some <$> take d) (fun res _ => ∀ al, res = some al →
      al.boards = {d} ∧ d.2.2 ∈ a.available (d.1, d.2.1)) (fun _ _ => True) a := by
  rw [wp_map]
  simp only [take, wp_bind, wp_state]
  split
  · trivial
  · next hne =>
    intro al hal
    obtain rfl := Option.some.inj hal
    exact ⟨rfl, (spare_eq hs).2.resolve_right fun hempty => hne hempty.2⟩

theorem allocBoard_named (hy : r.y ≠ .none) (n : ℕ) :
    wp (allocBoard r.x r.y r.z r.torus n) (fun res _ => a.Alive res) (fun _ _ => True) a := by
  induction n generalizing a with
  | zero => exact nofun
  | succ n ih =>
    simp only [allocBoard, wp_bind, wp_state]
    split
    · trivial
    split
    · trivial
    split
    · exact nofun
    next hdead =>
    cases hs : a.spare r.x r.y r.z with
    | some d =>
      apply (take_alive hs).mono _ fun _ _ _ => trivial
      intro res b hres al hal
      rw [(hres al hal).1]
      intro d' hd'
      obtain rfl := Finset.mem_singleton.mp hd'
      intro hd
      obtain ⟨hx, hy', hz⟩ := (spare_eq hs).1.resolve_left hy
      apply hdead
      refine ⟨hy, ?_⟩
      rw [hx, hy', hz]
      exact decide_eq_true hd
    | none =>
      dsimp only
      rw [wp_bind]
      apply (request_passes a r.x r.y).mono _ fun _ _ _ => trivial
      intro xy b hb
      cases xy with
      | none => exact nofun
      | some xy =>
        dsimp only
        rw [wp_bind, wp_update]
        have hih := ih (a := b.opened xy b.packTree)
        have hsame : (b.opened xy b.packTree).deadBoards = a.deadBoards := hb.setup.deadBoards
        unfold Alive at hih ⊢
        rwa [hsame] at hih

theorem allocBoard_any (hany : AsksAny r) :
    wp (allocBoard r.x r.y r.z r.torus 2) (fun res _ => a.Alive res ∨
      ∃ al d, res = some al ∧ a.next r = some d ∧ al.boards = {d}) (fun _ _ => True) a := by
  obtain ⟨hty, htorus, hargs, hy⟩ := hany
  have hchecked (b : Allocator) : Checked b r := ⟨htorus, hargs, fun h => absurd hy h⟩
  have hspare (b : Allocator) (d : Board) (hs : b.spare r.x r.y r.z = some d)
      {Q : Option Allocation → Allocator → Prop} (hnone : ∀ b', Q none b')
      (hsome : ∀ al b', al.boards = {d} → d.2.2 ∈ b.available (d.1, d.2.1) → Q (some al) b')
      (n : ℕ) : wp (allocBoard r.x r.y r.z r.torus (n + 1)) Q (fun _ _ => True) b := by
    unfold wp
    rw [allocBoard_succ (hchecked b), hs]
    apply (take_alive hs).mono _ fun _ _ _ => trivial
    intro res b' hres
    cases res with
    | none => exact hnone b'
    | some al => exact hsome al b' (hres al rfl).1 (hres al rfl).2
  cases hs : a.spare r.x r.y r.z with
  | some d =>
    apply hspare a d hs
    · intro al _ hboards hav
      refine .inr ⟨al, d, rfl, ?_, hboards⟩
      rw [next, if_pos ⟨hty, htorus, hargs, hy⟩, hs, Option.filter_some, if_pos (decide_eq_true hav)]
    · exact fun _ => .inl nofun
  | none =>
    have hkeys : a.singleBoardTriads.keys = [] := by
      unfold spare at hs
      rw [if_pos hy] at hs
      cases hk : a.singleBoardTriads.keys with
      | nil => rfl
      | cons xy rest => simp [hk] at hs
    unfold wp
    rw [allocBoard_succ (hchecked a), hs]
    change wp _ _ _ a
    simp only [ne_eq, hy, not_true_eq_false, if_false, allocTriad, wp_bind, wp_state, wp_update]
    generalize a.packTree.alloc (some a.hasAtLeastOneWorkingBoard) 1 1 () = res
    obtain ⟨xy, tree, -⟩ := res
    cases xy with
    | none => exact .inl nofun
    | some xy =>
      -- the triad just opened is the only one
      have hav (q : ℤ × ℤ) (z : ℤ) (hz : z ∈ (a.opened xy tree).available q) :
          (q.1, q.2, z) ∉ a.deadBoards := by
        rw [mem_available, get?_opened] at hz
        obtain ⟨free, hf, hz⟩ := hz
        split at hf
        · next hq =>
          obtain rfl := Option.some.inj hf
          rw [hq]
          exact (mem_working.mp hz).2
        · rw [Dict.get?_eq_none.mpr (by rw [hkeys]; exact List.not_mem_nil)] at hf
          cases hf
      have hopened : (a.opened xy tree).singleBoardTriads.keys = [xy] :=
        Dict.keys_set_of_nil hkeys xy _
      obtain ⟨d, hd⟩ : ∃ d, (a.opened xy tree).spare r.x r.y r.z = some d := by
        rw [spare, if_pos hy, hopened]
        exact ⟨_, rfl⟩
      have hsecond := hspare (a.opened xy tree) d hd (Q := fun res _ => a.Alive res)
        (fun _ => nofun) (fun al _ hboards hz al' hal d' hd' => ?_) 0
      · rw [hy] at hsecond
        exact hsecond.mono (fun _ _ h => .inl h) fun _ _ _ => trivial
      · obtain rfl := Option.some.inj hal
        rw [hboards] at hd'
        obtain rfl := Finset.mem_singleton.mp hd'
        exact hav _ _ hz

theorem allocate_alive (h : a.packTree.Valid) (r : Request) :
    wp (allocate r) (fun res _ => a.Alive res ∨
      ∃ al d, res = some al ∧ a.next r = some d ∧ al.boards = {d}) (fun _ _ => True) a := by
  unfold allocate
  rw [wp_bind]
  cases hty : r.allocType with
  | error e => trivial
  | ok type =>
    rw [wp_ofExcept_ok]
    cases type with
    | board =>
      by_cases hy : r.y = .none
      · by_cases hchecks : r.torus = .false ∧ boardArgs r.x r.y r.z
        · exact allocBoard_any ⟨hty, hchecks.1, hchecks.2, hy⟩
        · simp only [allocBoard, wp_bind, wp_state]
          split
          · trivial
          next htorus =>
          split
          · trivial
          next hargs => exact absurd ⟨not_not.mp htorus, not_not.mp hargs⟩ hchecks
      · exact (allocBoard_named hy 2).mono (fun _ _ h => .inl h) fun _ _ _ => trivial
    | boards =>
      dsimp only
      rw [wp_bind]
      cases r.bindBoards with
      | error e => trivial
      | ok nc => exact (allocBoards_alive h nc.1 nc.2).mono (fun _ _ h => .inl h) fun _ _ _ => trivial
    | triads =>
      dsimp only
      rw [wp_bind]
      cases r.bindTriads with
      | error e => trivial
      | ok whc =>
        exact (allocTriads_alive h whc.1 whc.2.1 whc.2.2).mono (fun _ _ h => .inl h)
          fun _ _ _ => trivial

theorem allocate_next {d : Board} (hd : a.next r = some d) :
    ∃ al b, (allocate r).run a = (.ok (some al), b) ∧ al.boards = {d} := by
  unfold next at hd
  split at hd
  · next hr =>
    obtain ⟨hty, htorus, hargs, hy⟩ := hr
    obtain ⟨hs, hav⟩ := Option.filter_eq_some_iff.mp hd
    have hne : a.available (d.1, d.2.1) ≠ ∅ := Finset.ne_empty_of_mem (of_decide_eq_true hav)
    have hboard : (allocate r).run a = (allocBoard r.x r.y r.z r.torus 2).run a := by
      unfold allocate
      rw [hty]
      rfl
    rw [hboard, allocBoard_succ ⟨htorus, hargs, fun h => absurd hy h⟩, hs]
    have htake : wp (some <$> take d) (fun res _ => ∃ al, res = some al ∧ al.boards = {d})
        (fun _ _ => False) a := by
      rw [wp_map]
      simp only [take, wp_bind, wp_state, if_neg hne]
      exact ⟨_, rfl, rfl⟩
    obtain ⟨res, b, hrun, al, rfl, hboards⟩ := wp_returns htake
    exact ⟨al, b, hrun, hboards⟩
  · cases hd

def popping (a : Allocator) (setPop : SetPop) : Allocator := { a with setPop := setPop }

def Popless {α : Type} (m : Prog Error Allocator α) : Prop :=
  ∀ a setPop, Mirrors (fun a b => b = a.popping setPop) m m a (a.popping setPop)

theorem Popless.bind {α β : Type} {m : Prog Error Allocator α} {f : α → Prog Error Allocator β}
    (h : Popless m) (hf : ∀ x, Popless (f x)) : Popless (m >>= f) := fun a setPop =>
  (h a setPop).bind fun x a _ hb => hb ▸ hf x a setPop

theorem popless_pure {α : Type} (x : α) : Popless (pure x : Prog Error Allocator α) :=
  fun _ _ => ⟨rfl, rfl⟩

theorem popless_update {f : Allocator → Allocator}
    (h : ∀ a setPop, f (a.popping setPop) = (f a).popping setPop) : Popless (update f) :=
  fun a setPop => ⟨rfl, h a setPop⟩

theorem freeTriads_popless (x y : ℤ) : Popless (freeTriads x y) := by
  intro a setPop
  apply Mirrors.state
  change Mirrors _ (ofExcept (a.packTree.free x y) >>= _) (ofExcept (a.packTree.free x y) >>= _) _ _
  cases a.packTree.free x y with
  | error e => exact ⟨rfl, rfl⟩
  | ok tree => exact ⟨rfl, rfl⟩

theorem returnBoard_popless (xy : ℤ × ℤ) (z : ℤ) : Popless (returnBoard xy z) := by
  apply (popless_update fun _ _ => rfl).bind fun _ a setPop => ?_
  apply Mirrors.state
  have hsame : (a.popping setPop).singleBoardTriads = a.singleBoardTriads := rfl
  rw [hsame]
  cases a.singleBoardTriads.get? xy with
  | none => exact ⟨rfl, rfl⟩
  | some free => exact ⟨rfl, rfl⟩

theorem freeNext_popless : Popless freeNext := by
  intro a setPop
  apply Mirrors.state
  rcases a with ⟨_, _, _, _, _, _, _, _, _, _ | ⟨e, rest⟩, _, _, _, _, _⟩
  · exact ⟨rfl, rfl⟩
  · refine (popless_update (f := fun a => { a with toFree := rest }) fun _ _ => rfl).bind ?_ _ setPop
    intro _
    obtain ⟨time, type, x, y, z⟩ := e
    cases type with
    | boards => exact fun _ _ => ⟨rfl, rfl⟩
    | triads => exact freeTriads_popless _ _
    | board =>
      apply (returnBoard_popless _ _).bind
      intro free
      split
      · exact (popless_update fun _ _ => rfl).bind fun _ => freeTriads_popless _ _
      · exact popless_pure ()

theorem checkFree_popless : Popless checkFree := by
  have hloop (n : ℕ) (changed : Bool) : Popless (checkFreeLoop changed n) := by
    induction n generalizing changed with
    | zero => exact popless_pure changed
    | succ n ih =>
      intro a setPop
      apply Mirrors.state
      rcases a with ⟨_, _, _, _, seconds, _, _, _, _, _ | ⟨e, rest⟩, _, _, clock, reads, _⟩
      · exact ⟨rfl, rfl⟩
      · have hnow : Popless now := fun _ _ => ⟨rfl, rfl⟩
        apply (hnow _ setPop).bind
        rintro time a _ rfl
        change Mirrors _ (if time - e.time < seconds * 1000000 then _ else _)
          (if time - e.time < seconds * 1000000 then _ else _) _ _
        split
        · exact ⟨rfl, rfl⟩
        · exact (freeNext_popless.bind fun _ => ih true) a setPop
  exact fun a => hloop a.toFree.length false a
def taking (z : ℤ) : SetPop where
  pick n s := if z ∈ s then z else SetPop.least.pick n s
  mem n s h := by
    split
    · assumption
    · exact SetPop.least.mem n s h

theorem next_mem {d : Board} (h : a.next r = some d) : AsksAny r ∧ d ∈ a.firstFree := by
  unfold next at h
  split at h
  · next hany =>
    obtain ⟨hs, hav⟩ := Option.filter_eq_some_iff.mp h
    rw [spare, if_pos hany.2.2.2] at hs
    unfold firstFree
    cases hkeys : a.singleBoardTriads.keys with
    | nil =>
      rw [hkeys] at hs
      cases hs
    | cons xy rest =>
      rw [hkeys] at hs
      cases hs
      exact ⟨hany, Finset.mem_image_of_mem _ (of_decide_eq_true hav)⟩
  · cases h

theorem next_taking {d : Board} (hany : AsksAny r) (hd : d ∈ a.firstFree) :
    (a.popping (taking d.2.2)).next r = some d := by
  unfold firstFree at hd
  cases hkeys : a.singleBoardTriads.keys with
  | nil =>
    rw [hkeys] at hd
    exact absurd hd (Finset.notMem_empty d)
  | cons xy rest =>
    rw [hkeys] at hd
    obtain ⟨z, hz, rfl⟩ := Finset.mem_image.mp hd
    have hpop : (a.popping (taking z)).spare r.x r.y r.z = some (xy.1, xy.2, z) := by
      rw [spare, if_pos hany.2.2.2]
      change (match a.singleBoardTriads.keys with
        | [] => none
        | xy :: _ => some (xy.1, xy.2, if z ∈ a.available xy then z else _)) = _
      rw [hkeys]
      exact congrArg (fun z => some (xy.1, xy.2, z)) (if_pos hz)
    rw [next, if_pos hany, hpop, Option.filter_some]
    exact if_pos (decide_eq_true hz)

/-- Once the first entries of the queue, up to one for a board of the triad, are released, no
board of the triad is held, but the spare ones are not just the boards that work now. -/
def Lossy (a : Allocator) (k : ℕ) (p : ℤ × ℤ) : Prop :=
  (∃ time z, a.toFree[k]? = some ⟨time, .board, (p.1, p.2, z)⟩) ∧ a.Expires (k + 1) ∧
    a.available p ∪ a.returning (k + 1) p ≠ a.working p ∧
    ∀ z, a.Outstanding (single p z) → single p z ∈ (a.toFree.take (k + 1)).map ToFree.claim

def Thrifty (a : Allocator) : Prop := ∀ k p, ¬a.Lossy k p

def Strays (a : Allocator) (r : Request) : Prop :=
  ¬r.Sane ∧ ∃ x y, r.x = .int x ∧ r.y = .int y ∧ (a.packTree.request x y).1.isSome

theorem strays_of_adds {x y : ℤ} {tree : PackTree} (h : a.packTree.Valid)
    (hadd : a.packTree.Adds (cell (x, y)) tree) (hsane : ¬r.Sane) (hx : r.x = .int x)
    (hy : r.y = .int y) : a.Strays r := by
  refine ⟨hsane, x, y, hx, hy, Option.isSome_iff_ne_none.mpr fun hn => ?_⟩
  have hnew := (hadd.mem (cell (x, y))).mpr (.inl rfl)
  have hin : (x, y) ∈ a.packTree.region.cells := by
    rw [← hadd.region]
    exact hadd.valid.allocated_subset hnew (cell_mem (x, y))
  obtain ⟨q, hq, hqc⟩ := h.covered (((PackTree.request_spec x y h).none hn).2) hin
  exact hadd.fresh q hq (x, y) (cell_mem (x, y)) hqc

theorem Outcome.kept {res : Except Error (Option Allocation)} (h : a.Inv)
    (ho : Outcome a r res b) (hstray : ¬a.Strays r) (hocc : a.ledger.Occupied) :
    b.Inv ∧ b.ledger.Occupied := by
  constructor
  · obtain hi | ⟨x, y, tree, hadd, hsane, hx, hy, -⟩ := ho.inv_or_leak h
    · exact hi
    · exact absurd (strays_of_adds h.tree hadd hsane hx hy) hstray
  · apply ho.occupied h _ hocc
    intro x y tree hadd hx hy
    by_contra hsane
    exact hstray (strays_of_adds h.tree hadd hsane hx hy)

theorem Thrifty.occupied {e : ToFree} {rest : List ToFree} (h : a.Inv) (hq : a.toFree = e :: rest)
    (hearly : ¬a.Early e) (ht : a.Thrifty) (hocc : a.ledger.Occupied) (hr : Released a.ticked b) :
    b.ledger.Occupied := by
  have hs := hr.advances h hq hearly
  intro p hp
  obtain ⟨hopen, -⟩ := hr.tracked h.ticked p hp
  by_contra hno
  rw [not_exists] at hno
  -- only the board of the entry was in use
  have honly (z : ℤ) (hz : a.Outstanding (single p z)) : single p z = e.claim := by
    by_contra hne
    exact hno z ((hs.outstanding _).mpr ⟨hz, hne⟩)
  obtain ⟨z, hz⟩ := hocc p hopen
  obtain ⟨time, type, board⟩ := e
  have hclaim := honly z hz
  simp only [single, ToFree.claim, Prod.mk.injEq] at hclaim
  obtain ⟨rfl, rfl⟩ := hclaim
  refine ht 0 p ⟨⟨time, z, by rw [hq]; rfl⟩, ?_, ?_, fun z' hz' => ?_⟩
  · exact hs.expires 0 fun i d hi => absurd hi (Nat.not_lt_zero i)
  · rw [← hs.spare p hp, returning_zero, Finset.union_empty]
    cases hr with
    | @block time r rest' tree hq' _ _ =>
      cases (List.cons.inj (hq.symm.trans hq')).1
    | @board time' x y z' rest' hq' hne =>
      obtain ⟨he, -⟩ := List.cons.inj (hq.symm.trans hq')
      simp only [ToFree.mk.injEq, Prod.mk.injEq, true_and] at he
      obtain ⟨rfl, rfl, rfl, rfl⟩ := he
      rw [available_returned, Function.update_self]
      exact hne
    | @last time' x y z' rest' tree hq' _ _ hrem =>
      obtain ⟨he, -⟩ := List.cons.inj (hq.symm.trans hq')
      simp only [ToFree.mk.injEq, Prod.mk.injEq, true_and] at he
      obtain ⟨rfl, rfl, rfl, rfl⟩ := he
      rw [ledger_released_last (p := p) h.ticked hq' hopen hrem] at hp
      exact absurd rfl hp.2
  · rw [honly z' hz', hq]
    exact List.mem_cons_self

theorem Thrifty.released {e : ToFree} {rest : List ToFree} (h : a.Inv) (hq : a.toFree = e :: rest)
    (hearly : ¬a.Early e) (ht : a.Thrifty) (hr : Released a.ticked b) : b.Thrifty := by
  rintro k p ⟨⟨time, z, hk⟩, hexp, hav, hall⟩
  have hs := hr.advances h hq hearly
  have hout : b.Outstanding (single p z) :=
    .inr (List.mem_map.mpr ⟨_, List.mem_of_getElem? hk, rfl⟩)
  have hopen : p ∈ b.ledger.opened := ((hr.inv h.ticked).sound.board p z hout).1
  refine ht (k + 1) p ⟨⟨time, z, ?_⟩, hs.expires _ hexp, ?_, fun z' hz' => ?_⟩
  · rw [← hs.entry]
    exact hk
  · rw [← hs.spare p hopen, ← hs.working]
    exact hav
  · rw [hs.claims, List.mem_cons]
    by_cases he : single p z' = e.claim
    · exact .inl he
    · exact .inr (hall z' ((hs.outstanding _).mpr ⟨hz', he⟩))

theorem Expired.thrifty {n : ℕ} (hx : Expired a n b) (h : a.Inv) (ht : a.Thrifty)
    (hocc : a.ledger.Occupied) : b.Inv ∧ b.Thrifty ∧ b.ledger.Occupied := by
  induction hx with
  | none => exact ⟨h, ht, hocc⟩
  | more _ hq hearly hr ih =>
    obtain ⟨hi, hti, hoi⟩ := ih
    exact ⟨hr.inv hi.ticked, hti.released hi hq hearly hr, hti.occupied hi hq hearly hoi hr⟩

theorem Swept.occupied {n : ℕ} (hs : Swept a n b) (h : a.Inv) (ht : a.Thrifty)
    (hocc : a.ledger.Occupied) : b.ledger.Occupied := by
  cases hs with
  | empty hx _ => exact (hx.thrifty h ht hocc).2.2
  | waiting hx _ _ => exact (hx.thrifty h ht hocc).2.2

theorem alloc_occupied (h : a.Inv) (hp : a.Prudent) (ht : a.Thrifty) (hocc : a.ledger.Occupied)
    (hstray : ¬(checkFree.run a).2.Strays r) :
    wp (alloc r) (fun _ b => b.Inv ∧ b.ledger.Occupied) (fun _ b => b.Inv ∧ b.ledger.Occupied)
      a := by
  obtain ⟨changed, b, hrun, hb, k, hs, -⟩ :=
    wp_returns (checkFree_spec h (careful_of_prudent h hp _))
  rw [hrun] at hstray
  rw [alloc_eq, wp_bind]
  apply wp_intro_ok hrun
  have hoccb := hs.occupied h ht hocc
  apply (allocate_spec hb.tree r).mono
  · exact fun _ _ ho => ho.kept hb hstray hoccb
  · exact fun _ _ ho => ho.kept hb hstray hoccb

end Allocator

namespace Session

variable {s s' : Session} {c : Setup} {call : AllocatorCall}

/-- The boards that a call returns. -/
def returned (s : Session) : AllocatorCall → Finset Board
  | .alloc r =>
    match ((Allocator.alloc r).run s.allocator).1 with
    | .ok (some al) => al.boards
    | _ => ∅
  | _ => ∅

/-- No board that the call returns is dead. -/
def Living (s : Session) (call : AllocatorCall) : Prop :=
  ∀ b ∈ s.returned call, b ∉ s.allocator.deadBoards

def popping (s : Session) (setPop : SetPop) : Session :=
  { s with allocator := s.allocator.popping setPop }

/-- Whichever boards are taken from sets, no board that the call returns is dead. -/
def AlwaysLiving (s : Session) (call : AllocatorCall) : Prop :=
  ∀ setPop, (s.popping setPop).Living call

/-- A request for any single board finds no dead boards among the free ones of the first opened
triad, once the expired entries are freed. -/
def Fresh (s : Session) : AllocatorCall → Prop
  | .alloc r => AsksAny r → ∀ changed a, checkFree.run s.allocator = (.ok changed, a) →
      ∀ b ∈ a.firstFree, b ∉ s.allocator.deadBoards
  | _ => True

def NextLives (s : Session) : AllocatorCall → Prop
  | .alloc r => ∀ changed a, checkFree.run s.allocator = (.ok changed, a) →
      ∀ b, a.next r = some b → b ∉ s.allocator.deadBoards
  | _ => True

theorem run_tree (h : s.allocator.packTree.Valid) (call : AllocatorCall) :
    (s.run call).2.allocator.packTree.Valid := by
  cases call with
  | alloc r =>
    have halloc : wp (Allocator.alloc r) (fun _ b => b.packTree.Valid)
        (fun _ b => b.packTree.Valid) s.allocator := by
      rw [alloc_eq, wp_bind]
      apply (checkFree_tree h).mono _ fun _ _ hb => hb
      intro _ b hb
      apply (allocate_spec hb r).mono
      · exact fun _ _ ho => ho.tree hb
      · exact fun _ _ ho => ho.tree hb
    have hrun := wp_same halloc
    simp only [Session.run]
    generalize (Allocator.alloc r).run s.allocator = res at hrun ⊢
    obtain ⟨e | _ | al, a⟩ := res <;> exact hrun
  | free id =>
    have hfree : wp (Allocator.free id) (fun _ b => b.packTree.Valid)
        (fun _ b => b.packTree.Valid) s.allocator := by
      simp only [Allocator.free, wp_bind, wp_state]
      cases s.allocator.allocationTypes.get? id with
      | none => exact h
      | some type =>
        dsimp only
        rw [wp_bind, wp_update]
        cases s.allocator.allocationBoard.get? id with
        | none => exact h
        | some b => exact h
    have hrun := wp_same hfree
    simp only [Session.run]
    generalize (Allocator.free id).run s.allocator = res at hrun ⊢
    obtain ⟨e | _, a⟩ := res <;> exact hrun
  | checkFree =>
    have hrun := wp_same (checkFree_tree h)
    simp only [Session.run]
    generalize Allocator.checkFree.run s.allocator = res at hrun ⊢
    obtain ⟨e | _, a⟩ := res <;> exact hrun
  | setDeadBoards d => exact h

theorem living_iff_next (h : s.allocator.packTree.Valid) (call : AllocatorCall) :
    s.Living call ↔ s.NextLives call := by
  have hnothing : (∀ b ∈ (∅ : Finset Board), b ∉ s.allocator.deadBoards) ↔ True :=
    iff_true_intro fun b hb => absurd hb (Finset.notMem_empty b)
  cases call with
  | alloc r =>
    have hpasses := checkFree_passes s.allocator
    have htree := checkFree_tree h
    unfold wp at hpasses htree
    simp only [Living, returned, NextLives, alloc_eq, run_bind]
    generalize checkFree.run s.allocator = res at hpasses htree ⊢
    obtain ⟨e | changed, a⟩ := res
    · exact hnothing.trans (iff_of_true trivial nofun)
    dsimp only at hpasses htree ⊢
    rw [← hpasses.setup.deadBoards]
    constructor
    · rintro hliving _ _ ⟨⟩ d hd
      obtain ⟨al, b, hrun, hboards⟩ := allocate_next hd
      rw [hrun] at hliving
      apply hliving d
      change d ∈ al.boards
      rw [hboards]
      exact Finset.mem_singleton_self d
    · intro hfresh d hd
      have halive := allocate_alive htree r
      unfold wp at halive
      generalize (allocate r).run a = res at halive hd
      obtain ⟨e | _ | al, b⟩ := res
      · exact absurd hd (Finset.notMem_empty d)
      · exact absurd hd (Finset.notMem_empty d)
      obtain halive | ⟨al', d', hal, hnext, hboards⟩ := halive
      · exact halive al rfl d hd
      · obtain rfl := Option.some.inj hal
        change d ∈ al.boards at hd
        rw [hboards] at hd
        obtain rfl := Finset.mem_singleton.mp hd
        exact hfresh changed a rfl d hnext
  | free id => exact hnothing
  | checkFree => exact hnothing
  | setDeadBoards d => exact hnothing

theorem alwaysLiving_iff_fresh (h : s.allocator.packTree.Valid) (call : AllocatorCall) :
    s.AlwaysLiving call ↔ s.Fresh call := by
  have hnext : s.AlwaysLiving call ↔ ∀ setPop, (s.popping setPop).NextLives call :=
    forall_congr' fun setPop => living_iff_next (s := s.popping setPop) h call
  rw [hnext]
  cases call with
  | alloc r =>
    constructor
    · intro hall hany changed a hrun b hb
      obtain ⟨hsame, hleft⟩ := checkFree_popless s.allocator (taking b.2.2)
      rw [hrun] at hsame hleft
      exact hall (taking b.2.2) changed (a.popping (taking b.2.2)) (Prod.ext hsame.symm hleft) b
        (next_taking hany hb)
    · intro hfresh setPop changed a hrun b hb
      obtain ⟨hany, hmem⟩ := next_mem hb
      obtain ⟨hsame, hleft⟩ := checkFree_popless s.allocator setPop
      change checkFree.run (s.allocator.popping setPop) = _ at hrun
      rw [hrun] at hsame hleft
      have hfree : a.firstFree = ((checkFree.run s.allocator).2.popping setPop).firstFree :=
        congrArg firstFree hleft
      rw [hfree] at hmem
      exact hfresh hany changed (checkFree.run s.allocator).2 (Prod.ext hsame rfl) b hmem
  | free id => exact iff_of_true (fun _ => trivial) trivial
  | checkFree => exact iff_of_true (fun _ => trivial) trivial
  | setDeadBoards d => exact iff_of_true (fun _ => trivial) trivial

/-- In any run, dead boards can be returned just where one is among the free boards of the triad
that the next board is taken from. -/
theorem living_iff (c : Setup) (calls : List AllocatorCall) :
    (System.Along (fun s call => (s.run call).2) AlwaysLiving c.start calls ↔
      System.Along (fun s call => (s.run call).2) Fresh c.start calls) ∧
    (System.Along (fun s call => (s.run call).2) Fresh c.start calls →
      System.Along (fun s call => (s.run call).2) Living c.start calls) := by
  have hiff : System.Along (fun s call => (s.run call).2) AlwaysLiving c.start calls ↔
      System.Along (fun s call => (s.run call).2) Fresh c.start calls :=
    System.along_congr (I := fun s => s.allocator.packTree.Valid)
      (fun _ call h => run_tree h call) (fun _ call h => alwaysLiving_iff_fresh h call)
      (inv_start c).allocator.tree calls
  exact ⟨hiff, fun hfresh => (hiff.mpr hfresh).mono fun s _ h => h s.allocator.setPop⟩

def spareLost : List AllocatorCall :=
  [.alloc { args := .nil }, .setDeadBoards {(0, 0, 1)}, .alloc { args := .nil }]

theorem spareLost_returned_dead :
    ¬ ∀ calls, System.Along (fun s call => (s.run call).2) Living oneTriad.start calls := by
  intro h
  obtain ⟨-, -, hliving, -⟩ := h spareLost
  have hlost : (0, 0, 1) ∈ (oneTriad.start.runs (spareLost.take 2)).returned
      (.alloc { args := .nil }) ∧
      (0, 0, 1) ∈ (oneTriad.start.runs (spareLost.take 2)).allocator.deadBoards := by
    decide +kernel
  exact hliving (0, 0, 1) hlost.1 hlost.2

/-- The releases that are due neither make a triad look empty that is not, nor leave one open
that is, and no triad is opened for a board that does not exist. -/
def Tidy (s : Session) : AllocatorCall → Prop
  | .alloc r => s.allocator.Prudent ∧ s.allocator.Thrifty ∧
      ¬(Allocator.checkFree.run s.allocator).2.Strays r
  | .checkFree => s.allocator.Prudent ∧ s.allocator.Thrifty
  | .free _ => True
  | .setDeadBoards _ => True

structure Busy (c : Setup) (s : Session) : Prop where
  inv : s.Inv
  occupied : s.allocator.ledger.Occupied
  setup : s.allocator.width = c.width ∧ s.allocator.height = c.height ∧
    s.allocator.secondsBeforeFree = c.secondsBeforeFree

theorem Ran.sizes {res : Except Error Unit} (hr : Ran s call res s') :
    s'.allocator.width = s.allocator.width ∧ s'.allocator.height = s.allocator.height ∧
      s'.allocator.secondsBeforeFree = s.allocator.secondsBeforeFree := by
  have hsame (h : SameSetup s.allocator s'.allocator) := And.intro h.width
    (And.intro h.height h.secondsBeforeFree)
  cases hr with
  | granted hs _ ho _ => exact hsame (hs.sameSetup.trans ho.sameSetup)
  | nothing hs _ ho _ => exact hsame (hs.sameSetup.trans ho.sameSetup)
  | freed _ => exact ⟨rfl, rfl, rfl⟩
  | unknown _ => exact ⟨rfl, rfl, rfl⟩
  | checkFree hs _ => exact hsame hs.sameSetup
  | setDeadBoards _ => exact ⟨rfl, rfl, rfl⟩

theorem Busy.ran {res : Except Error Unit} (h : Busy c s) (hr : Ran s call res s')
    (hi : s'.allocator.Inv) (hocc : s'.allocator.ledger.Occupied) : Busy c s' := by
  obtain ⟨hw, hh, hsec⟩ := hr.sizes
  obtain ⟨hw', hh', hsec'⟩ := h.setup
  exact ⟨hr.inv_of_allocator h.inv hi, hocc, hw.trans hw', hh.trans hh', hsec.trans hsec'⟩

theorem Busy.checkFree (h : Busy c s) (ht : s.Tidy .checkFree) :
    Ran s .checkFree (s.run .checkFree).1 (s.run .checkFree).2 ∧ Busy c (s.run .checkFree).2 := by
  have hproper : s.Proper .checkFree := careful_of_prudent h.inv.allocator ht.1 _
  have hr := run_spec h.inv hproper
  refine ⟨hr, h.ran hr (hr.inv h.inv hproper).allocator ?_⟩
  · obtain ⟨-, k, hs⟩ := hr.of_checkFree
    exact hs.occupied h.inv.allocator ht.2 h.occupied

theorem Busy.run (h : Busy c s) (ht : s.Tidy call) : Busy c (s.run call).2 := by
  cases call with
  | alloc r =>
    have hr := run_alloc h.inv r (careful_of_prudent h.inv.allocator ht.1 _)
    have hrun := wp_same (alloc_occupied h.inv.allocator ht.1 ht.2.1 h.occupied ht.2.2)
    have hkept : (s.run (.alloc r)).2.allocator = ((Allocator.alloc r).run s.allocator).2 := by
      simp only [Session.run]
      generalize (Allocator.alloc r).run s.allocator = res
      obtain ⟨e | _ | al, a⟩ := res <;> rfl
    rw [← hkept] at hrun
    exact h.ran hr hrun.1 hrun.2
  | free id =>
    have hproper : s.Proper (.free id) := trivial
    have hr := run_spec h.inv hproper
    apply h.ran hr
    · exact (hr.inv h.inv hproper).allocator
    · generalize (s.run (.free id)).2 = s' at hr
      generalize (s.run (.free id)).1 = res at hr
      cases hr with
      | @freed l hl =>
        rw [ledger_freed ((h.inv.live _ _).mpr ⟨l, hl, rfl, rfl⟩)]
        exact h.occupied
      | unknown _ => exact h.occupied
  | checkFree => exact (h.checkFree ht).2
  | setDeadBoards d => exact ⟨h.inv.setDeadBoards d, h.occupied, h.setup⟩

theorem reachable_busy (h : ((system c).restrict Tidy).Reachable s) : Busy c s := by
  apply h.invariant
  · rintro s rfl
    refine ⟨inv_start c, ?_, rfl, rfl, rfl⟩
    exact (settled_new _ _ _ _ _ _ _ _).occupied
  · rintro s call _ - hs ⟨ht, rfl⟩
    exact hs.run ht

theorem Busy.drained (h : Busy c s) (hn : s.held = []) : s.Drained c := by
  have hd := h.inv.drained h.occupied hn
  rwa [h.setup.1, h.setup.2.1] at hd

/-- In runs of tidy calls no triad is lost: the tree and the tables are as at the start whenever
nothing is held. -/
theorem drained_of_tidy (c : Setup) (h : ((system c).restrict Tidy).Reachable s) :
    (s.held = [] → s.Drained c) ∧
      (s.live = [] → s.Late c → s.Tidy .checkFree →
        (s.run .checkFree).2.held = [] ∧ (s.run .checkFree).2.Drained c) := by
  have hs := reachable_busy h
  refine ⟨hs.drained, fun hlive hlate ht => ?_⟩
  obtain ⟨hr, hb⟩ := hs.checkFree ht
  have hheld : (s.run .checkFree).2.held = [] := by
    apply hr.emptied hb.inv hlive
    rw [hs.setup.2.2]
    exact hlate
  exact ⟨hheld, hb.drained hheld⟩

theorem thrifty_of_empty {a : Allocator} (h : a.toFree = []) : a.Thrifty := by
  rintro k p ⟨⟨time, z, hk⟩, -⟩
  simp [h] at hk

def deadBefore : List AllocatorCall :=
  [.setDeadBoards {(0, 0, 1)}, .alloc { args := .nil }, .free 1]

theorem reachable_deadBefore :
    ((system oneTriad).restrict Tidy).Reachable (oneTriad.start.runs deadBefore) := by
  have h0 : ((system oneTriad).restrict Tidy).Reachable oneTriad.start := .start rfl
  have h1 := reachable_run h0 (.setDeadBoards {(0, 0, 1)}) trivial
  have h2 := reachable_run h1 (.alloc { args := .nil })
    ⟨prudent_of_empty (by decide +kernel), thrifty_of_empty (by decide +kernel),
      fun h => h.1 nofun⟩
  exact reachable_run h2 (.free 1) trivial

theorem drained_of_tidy_deadBefore :
    ((oneTriad.start.runs deadBefore).run .checkFree).2.Drained oneTriad := by
  have hq : (oneTriad.start.runs deadBefore).allocator.toFree = [⟨0, .board, (0, 0, 0)⟩] := by
    decide +kernel
  have hwork : (oneTriad.start.runs deadBefore).allocator.available (0, 0) ∪
      (oneTriad.start.runs deadBefore).allocator.returning 1 (0, 0) =
        (oneTriad.start.runs deadBefore).allocator.working (0, 0) := by
    decide +kernel
  have hclaims (z : ℤ) (hz : (oneTriad.start.runs deadBefore).allocator.Outstanding
      (single (0, 0) z)) : single (0, 0) z ∈
        ((oneTriad.start.runs deadBefore).allocator.toFree.take 1).map ToFree.claim := by
    have hlive : (oneTriad.start.runs deadBefore).allocator.allocationTypes.entries = [] := by
      decide +kernel
    obtain ⟨id, hid⟩ | hm := hz
    · have hnone : (oneTriad.start.runs deadBefore).allocator.allocationTypes.get? id = none := by
        rw [Dict.get?, hlive]
        rfl
      simp [claimOf, hnone] at hid
    · rw [hq] at hm ⊢
      exact hm
  have hhead (k : ℕ) (p : ℤ × ℤ) (time z : ℤ) (hk : (oneTriad.start.runs
      deadBefore).allocator.toFree[k]? = some ⟨time, .board, (p.1, p.2, z)⟩) :
      k = 0 ∧ p = (0, 0) := by
    rw [hq] at hk
    cases k with
    | succ k => simp at hk
    | zero =>
      simp only [List.getElem?_cons_zero, Option.some.injEq, ToFree.mk.injEq, Prod.mk.injEq] at hk
      exact ⟨rfl, Prod.ext hk.2.2.1.symm hk.2.2.2.1.symm⟩
  refine ((drained_of_tidy oneTriad reachable_deadBefore).2 (by decide +kernel) ?_ ⟨?_, ?_⟩).2
  · intro k e he
    rw [hq] at he
    cases k with
    | succ k => simp at he
    | zero =>
      obtain rfl := Option.some.inj he
      decide +kernel
  · rintro k p ⟨⟨time, z, hk⟩, -, -, z', hout, hno⟩
    obtain ⟨rfl, rfl⟩ := hhead k p time z hk
    exact hno (hclaims z' hout)
  · rintro k p ⟨⟨time, z, hk⟩, -, hne, -⟩
    obtain ⟨rfl, rfl⟩ := hhead k p time z hk
    exact hne hwork

/-- A board of the opened triad dies, and the other one that was in use is given back. -/
def spareDead : List AllocatorCall :=
  [.alloc { args := .nil }, .setDeadBoards {(0, 0, 1)}, .free 1, .checkFree]

/-- Nothing is held, no call has raised, and the triad is still set aside. -/
theorem spareDead_not_drained :
    (oneTriad.start.runs spareDead).held = [] ∧
      System.Along (fun s call => (s.run call).2) (fun s call => (s.run call).1 = .ok ())
        oneTriad.start spareDead ∧
      ¬(oneTriad.start.runs spareDead).Drained oneTriad := by
  have hheld : (oneTriad.start.runs spareDead).held.map Lease.id = [] := by decide +kernel
  refine ⟨List.map_eq_nil_iff.mp hheld,
    ⟨by decide +kernel, by decide +kernel, by decide +kernel, by decide +kernel, trivial⟩,
    fun hd => ?_⟩
  have hkeys : (oneTriad.start.runs spareDead).allocator.singleBoardTriads.keys = [(0, 0)] := by
    decide +kernel
  rw [hd.2.1] at hkeys
  cases hkeys

end Session

end SpallocServer
