import SpallocServer.Allocator.Reconfiguration

namespace SpallocServer.Allocator

open Foundation Prog Ledger

variable {a b : Allocator} {r : Request} {K : Board → Prop} {p q : ℤ × ℤ} {z : ℤ}

/-- All boards that may be handed out satisfy `K`: those that work, and those that are in the
tables of single boards, whether or not they still work. -/
structure Stocked (K : Board → Prop) (a : Allocator) : Prop where
  tree : a.packTree.Valid
  root : a.packTree.region = ⟨0, 0, a.width, a.height⟩
  works : ∀ b, Coordinates.InMachine a.width a.height b → b ∉ a.deadBoards → K b
  spare : ∀ p z, z ∈ a.available p → K (p.1, p.2, z)
  live : ∀ id b, a.allocationTypes.get? id = some .board → a.allocationBoard.get? id = some b → K b
  queue : ∀ e ∈ a.toFree, e.type = .board → K e.board

namespace Stocked

theorem new {width height : ℤ} {deadBoards : Finset Board} {deadLinks : Finset BoardLink}
    {nextId : ℕ} {secondsBeforeFree : ℤ} {clock : ℕ → ℤ} {setPop : SetPop} (hw : 1 ≤ width)
    (hh : 1 ≤ height)
    (hworks : ∀ b, Coordinates.InMachine width height b → b ∉ deadBoards → K b) :
    Stocked K (.new width height deadBoards deadLinks nextId secondsBeforeFree clock setPop) where
  tree := (inv_new _ _ _ _ _ _ _ _ hw hh).tree
  root := rfl
  works := hworks
  spare _ _ := nofun
  live _ _ := nofun
  queue _ := nofun

theorem reconfigured (h : Stocked K a) {deadBoards : Finset Board} (deadLinks : Finset BoardLink)
    (hworks : ∀ b, Coordinates.InMachine a.width a.height b → b ∉ deadBoards → K b) :
    Stocked K { a with deadBoards := deadBoards, deadLinks := deadLinks } :=
  ⟨h.tree, h.root, hworks, h.spare, h.live, h.queue⟩

theorem tables (h : Stocked K a) {tree : PackTree} {toFree : List ToFree} (reads : ℕ)
    (htree : tree.Valid) (hregion : tree.region = a.packTree.region)
    (hqueue : ∀ e ∈ toFree, e ∈ a.toFree) :
    Stocked K { a with packTree := tree, toFree := toFree, reads := reads } :=
  ⟨htree, hregion.trans h.root, h.works, h.spare, h.live, fun e he => h.queue e (hqueue e he)⟩

theorem mono {K' : Board → Prop} (h : Stocked K a) (hK : ∀ b, K b → K' b) : Stocked K' a :=
  ⟨h.tree, h.root, fun b hb hd => hK b (h.works b hb hd), fun p z hz => hK _ (h.spare p z hz),
    fun id b ht hb => hK b (h.live id b ht hb), fun e he hb => hK _ (h.queue e he hb)⟩

theorem works_in_cell (h : Stocked K a) {rect : Region} {tree : PackTree}
    (hadd : a.packTree.Adds rect tree) {d : Board} (hd : (d.1, d.2.1) ∈ rect.cells)
    (hz : 0 ≤ d.2.2 ∧ d.2.2 < 3) (halive : d ∉ a.deadBoards) : K d := by
  have hsub := hadd.valid.allocated_subset ((hadd.mem rect).mpr (.inl rfl)) hd
  rw [hadd.region, h.root, Region.mem_cells] at hsub
  dsimp only at hsub
  exact h.works d ⟨by omega, by omega, hz⟩ halive

theorem registered (h : Stocked K a) {type : AllocationType} {d : Board}
    (hd : type = .board → K d) : Stocked K (a.registered type d) where
  tree := h.tree
  root := h.root
  works := h.works
  spare := h.spare
  live id b ht hb := by
    change (a.allocationTypes.set a.nextId type).get? id = some .board at ht
    change (a.allocationBoard.set a.nextId d).get? id = some b at hb
    rw [Dict.get?_set] at ht hb
    split at ht
    · next hid =>
      rw [if_pos hid] at hb
      cases hb
      exact hd (Option.some.inj ht)
    · next hid =>
      rw [if_neg hid] at hb
      exact h.live id b ht hb
  queue := h.queue

theorem taken (h : Stocked K a) (p : ℤ × ℤ) (z : ℤ) : Stocked K (a.taken p z) where
  tree := h.tree
  root := h.root
  works := h.works
  spare q z' hz' := by
    rw [available_taken] at hz'
    by_cases hq : q = p
    · subst hq
      rw [Function.update_self] at hz'
      exact h.spare q z' (Finset.mem_of_mem_erase hz')
    · rw [Function.update_of_ne hq] at hz'
      exact h.spare q z' hz'
  live := h.live
  queue := h.queue

theorem opened (h : Stocked K a) {tree : PackTree} (hadd : a.packTree.Adds (cell p) tree) :
    Stocked K (a.opened p tree) where
  tree := hadd.valid
  root := hadd.region.trans h.root
  works := h.works
  spare q z hz := by
    obtain ⟨free, hf, hz⟩ := mem_available.mp hz
    rw [get?_opened] at hf
    split at hf
    · next hq =>
      subst hq
      obtain rfl := Option.some.inj hf
      obtain ⟨hz, halive⟩ := mem_working.mp hz
      exact h.works_in_cell hadd (cell_mem q) hz halive
    · exact h.spare q z (mem_available.mpr ⟨free, hf, hz⟩)
  live := h.live
  queue := h.queue

end Stocked

/-- What is handed out are boards that satisfy `K`, and links of theirs. -/
def Provides (K : Board → Prop) (res : Option Allocation) : Prop :=
  ∀ al, res = some al → al.boards.Nonempty ∧ (∀ d ∈ al.boards, K d) ∧
    ∀ l ∈ al.periphery, l.1 ∈ al.boards

theorem provides_ofBoard {id : ℕ} {d : Board} (hd : K d) :
    Provides K (some (.ofBoard id d)) := by
  intro al hal
  cases hal
  refine ⟨Finset.singleton_nonempty d, ?_, ?_⟩
  · intro d' hd'
    rw [Finset.mem_singleton.mp hd']
    exact hd
  · intro l hl
    obtain ⟨link, -, rfl⟩ := Finset.mem_image.mp hl
    exact Finset.mem_singleton_self d

theorem Stocked.outcome {res : Except Error (Option Allocation)} (h : Stocked K a)
    (ho : Outcome a r res b) : Stocked K b ∧ ∀ x, res = .ok x → Provides K x := by
  cases ho with
  | refused _ _ => exact ⟨h, nofun⟩
  | starved _ => exact ⟨h, nofun⟩
  | nothing =>
    refine ⟨h, fun x hx => ?_⟩
    cases hx
    exact nofun
  | @triads f rect tree torus _ _ hdead _ hadd boards hboards hne =>
    constructor
    · exact Stocked.registered
        (h.tables a.reads hadd.valid hadd.region fun _ he => he) nofun
    · intro x hx
      cases hx
      intro al hal
      cases hal
      refine ⟨hne, fun d hd => ?_, fun l hl => (CandidateFilter.mem_periphery.mp hl).1⟩
      have hpos := hadd.valid.allocated_positive ((hadd.mem rect).mpr (.inl rfl))
      dsimp only at hd
      rw [hboards] at hd
      obtain ⟨hin, halive⟩ := CandidateFilter.mem_enumerateBoards hpos.1 hpos.2 hd
      rw [CandidateFilter.mem_regionBoards] at hin
      rw [hdead] at halive
      rw [CandidateFilter.inRange_iff] at hin
      exact h.works_in_cell hadd (Region.mem_cells.mpr hin.1) hin.2 halive
  | @spare x y z hz _ =>
    have hd := h.spare (x, y) z hz
    constructor
    · exact (h.taken (x, y) z).registered fun _ => hd
    · intro res hres
      cases hres
      exact provides_ofBoard hd
  | @fresh x y z tree hadd hz _ =>
    obtain ⟨hrange, halive⟩ := mem_working.mp hz
    have hd : K (x, y, z) := h.works_in_cell hadd (cell_mem (x, y)) hrange halive
    constructor
    · exact ((h.opened (p := (x, y)) hadd).taken (x, y) z).registered fun _ => hd
    · intro res hres
      cases hres
      exact provides_ofBoard hd
  | @leaked x y tree hadd _ _ _ =>
    refine ⟨h.opened (p := (x, y)) hadd, fun x hx => ?_⟩
    cases hx
    exact nofun

theorem allocate_stocked (h : Stocked K a) (r : Request) :
    wp (allocate r) (fun res b => Stocked K b ∧ Provides K res) (fun _ b => Stocked K b) a := by
  apply (allocate_spec h.tree r).mono
  · exact fun res b ho => ⟨(h.outcome ho).1, (h.outcome ho).2 res rfl⟩
  · exact fun e b ho => (h.outcome ho).1

theorem freeTriads_stocked (h : Stocked K a) (x y : ℤ) :
    wp (freeTriads x y) (fun _ => Stocked K) (fun _ => Stocked K) a := by
  simp only [freeTriads, wp_bind, wp_state]
  have hspec := PackTree.free_spec x y h.tree
  cases hfree : a.packTree.free x y with
  | error e => exact h
  | ok tree =>
    obtain ⟨_, _, _, _, hrem⟩ := hspec.ok tree hfree
    exact h.tables a.reads hrem.valid hrem.region fun _ he => he

theorem Stocked.spares {singleBoardTriads : Dict (ℤ × ℤ) (Finset ℤ)} (h : Stocked K a)
    (full : Finset (ℤ × ℤ))
    (hspare : ∀ p free, singleBoardTriads.get? p = some free → ∀ z ∈ free,
      z ∈ a.available p ∨ K (p.1, p.2, z)) :
    Stocked K { a with singleBoardTriads := singleBoardTriads, fullSingleBoardTriads := full } where
  tree := h.tree
  root := h.root
  works := h.works
  spare p z hz := by
    obtain ⟨free, hf, hz⟩ := mem_available.mp hz
    obtain hold | hnew := hspare p free hf z hz
    · exact h.spare p z hold
    · exact hnew
  live := h.live
  queue := h.queue

theorem returnBoard_stocked (h : Stocked K a) (hz : K (p.1, p.2, z)) :
    wp (returnBoard p z) (fun _ => Stocked K) (fun _ => Stocked K) a := by
  have hreopened : Stocked K (a.reopened p) := by
    apply h.spares
    intro q free hq z' hz'
    left
    split at hq
    · rw [Dict.get?_set] at hq
      split at hq
      · cases hq
        exact absurd hz' (Finset.notMem_empty z')
      · exact mem_available.mpr ⟨free, hq, hz'⟩
    · exact mem_available.mpr ⟨free, hq, hz'⟩
  simp only [returnBoard, wp_bind, wp_update, wp_state]
  cases hfree : (a.reopened p).singleBoardTriads.get? p with
  | none => exact hreopened
  | some free =>
    apply hreopened.spares (a.reopened p).fullSingleBoardTriads
    intro q free' hq z' hz'
    rw [Dict.get?_set] at hq
    split at hq
    · next hpq =>
      subst hpq
      cases hq
      obtain rfl | hz' := Finset.mem_insert.mp hz'
      · exact .inr hz
      · exact .inl (mem_available.mpr ⟨free, hfree, hz'⟩)
    · exact .inl (mem_available.mpr ⟨free', hq, hz'⟩)

theorem freeNext_stocked (h : Stocked K a) :
    wp freeNext (fun _ => Stocked K) (fun _ => Stocked K) a := by
  simp only [freeNext, wp_bind, wp_state]
  cases hq : a.toFree with
  | nil => exact h
  | cons e rest =>
    have hrest : Stocked K { a with toFree := rest } :=
      h.tables a.reads h.tree rfl fun e' he' => by
        rw [hq]
        exact List.mem_cons_of_mem e he'
    have hin : e ∈ a.toFree := by
      rw [hq]
      exact List.mem_cons_self
    have hboard := h.queue e hin
    obtain ⟨time, type, x, y, z⟩ := e
    dsimp only
    rw [wp_bind, wp_update]
    cases type with
    | boards => exact hrest
    | triads => exact freeTriads_stocked hrest x y
    | board =>
      dsimp only
      rw [wp_bind]
      apply (returnBoard_stocked (p := (x, y)) hrest (hboard rfl)).mono _ fun _ _ hb => hb
      intro free b hb
      split
      · rw [wp_bind, wp_update]
        apply freeTriads_stocked
        apply hb.spares b.fullSingleBoardTriads
        intro q free' hq' z' hz'
        rw [Dict.get?_erase] at hq'
        split at hq'
        · cases hq'
        · exact .inl (mem_available.mpr ⟨free', hq', hz'⟩)
      · exact hb

theorem checkFree_stocked (h : Stocked K a) :
    wp checkFree (fun _ => Stocked K) (fun _ => Stocked K) a := by
  have hloop (n : ℕ) (changed : Bool) (a : Allocator) (h : Stocked K a) :
      wp (checkFreeLoop changed n) (fun _ => Stocked K) (fun _ => Stocked K) a := by
    induction n generalizing a changed with
    | zero => exact h
    | succ n ih =>
      simp only [checkFreeLoop, wp_bind, wp_state]
      cases a.toFree with
      | nil => exact h
      | cons e rest =>
        have hticked : Stocked K a.ticked := h.tables (a.reads + 1) h.tree rfl fun _ he => he
        simp only [now, wp_bind, wp_state, wp_update, wp_pure]
        split
        · exact hticked
        · rw [wp_bind]
          apply (freeNext_stocked hticked).mono _ fun _ _ hb => hb
          exact fun _ b hb => ih true b hb
  exact hloop _ false a h

theorem alloc_stocked (h : Stocked K a) (r : Request) :
    wp (alloc r) (fun res b => Stocked K b ∧ Provides K res) (fun _ b => Stocked K b) a := by
  rw [alloc_eq, wp_bind]
  exact (checkFree_stocked h).mono (fun _ b hb => allocate_stocked hb r) fun _ _ hb => hb

theorem free_stocked (h : Stocked K a) (id : ℕ) :
    wp (free id) (fun _ => Stocked K) (fun _ => Stocked K) a := by
  have hforgotten : Stocked K { a with allocationTypes := a.allocationTypes.erase id } :=
    ⟨h.tree, h.root, h.works, h.spare,
      fun id' b ht hb => h.live id' b (Dict.get?_of_erase ht) hb, h.queue⟩
  simp only [free, wp_bind, wp_state]
  cases ht : a.allocationTypes.get? id with
  | none => exact h
  | some type =>
    dsimp only
    rw [wp_bind, wp_update]
    cases hb : a.allocationBoard.get? id with
    | none => exact hforgotten
    | some d =>
      simp only [now, wp_bind, wp_state, wp_update, wp_pure]
      exact {
        tree := h.tree
        root := h.root
        works := h.works
        spare := h.spare
        live := fun id' b ht' hb' =>
          h.live id' b (Dict.get?_of_erase ht') (Dict.get?_of_erase hb')
        queue := fun e he htype => by
          obtain he | he := List.mem_append.mp he
          · exact h.queue e he htype
          · obtain rfl := List.mem_singleton.mp he
            dsimp only at htype
            subst htype
            exact h.live id d ht hb }

end SpallocServer.Allocator
