import SpallocServer.Controller.Dedication

namespace SpallocServer.Controller

open Foundation Prog

universe u

variable {α : Type u} {c c' : Controller} {id b k : ℕ} {n : ℤ} {power : Bool}
  {linkEnable : Option Bool} {machine : Configuration.Machine} {controllers : Dict (ℤ × ℤ) ℕ}
  {commands commands' : Dict ℕ AtomicRequests} {board : Board} {f : α → Board} {l : List α} {x : α}

def reached (machine : Configuration.Machine) (controllers : Dict (ℤ × ℤ) ℕ) (b : ℕ)
    (f : α → Board) (l : List α) : List (ℤ × α) :=
  l.filterMap fun x =>
    match locate machine controllers (f x) with
    | .ok (b', n) => if b' = b then some (n, x) else none
    | .error _ => none

theorem reached_cons {b' : ℕ} (h : locate machine controllers (f x) = .ok (b', n)) :
    reached machine controllers b f (x :: l) =
      if b' = b then (n, x) :: reached machine controllers b f l
      else reached machine controllers b f l := by
  unfold reached
  rw [List.filterMap_cons, h]
  dsimp only
  by_cases hb : b' = b
  · rw [if_pos hb, if_pos hb]
  · rw [if_neg hb, if_neg hb]

theorem mem_reached : (n, x) ∈ reached machine controllers b f l ↔
    x ∈ l ∧ locate machine controllers (f x) = .ok (b, n) := by
  rw [reached, List.mem_filterMap]
  constructor
  · rintro ⟨y, hy, hn⟩
    split at hn
    · next b' n' hlocate =>
      split at hn
      · next hb =>
        cases hn
        exact ⟨hy, by rw [hlocate, hb]⟩
      · cases hn
    · cases hn
  · rintro ⟨hx, hlocate⟩
    refine ⟨x, hx, ?_⟩
    rw [hlocate]
    exact if_pos rfl

def furthered (id : ℕ) (old : Option AtomicRequests) (more : List (AtomicRequests → AtomicRequests)) :
    Option AtomicRequests :=
  if more = [] then old else some (more.foldl (fun r f => f r) (old.getD (.new id)))

theorem furthered_group {b' : ℕ} {g : AtomicRequests → AtomicRequests}
    {more : List (AtomicRequests → AtomicRequests)} :
    furthered id ((group id commands b' g).get? b) more =
      furthered id (commands.get? b) (if b' = b then g :: more else more) := by
  rw [group, Dict.get?_set]
  by_cases hb : b' = b
  · subst hb
    rw [if_pos rfl, if_pos rfl, furthered, furthered, if_neg (List.cons_ne_nil g more)]
    split
    · next hnil => rw [hnil, List.foldl_cons, List.foldl_nil]
    · rfl
  · rw [if_neg hb, if_neg hb]

theorem get?_powerCommands {boards : List Board}
    (h : powerCommands machine controllers id power commands boards = .ok commands') :
    commands'.get? b = furthered id (commands.get? b)
      ((reached machine controllers b (fun board => board) boards).map fun p r => r.power p.1 power) := by
  induction boards generalizing commands with
  | nil =>
    cases h
    rfl
  | cons board boards ih =>
    unfold powerCommands at h
    split at h
    · cases h
    next b' n hlocate =>
    rw [ih h, furthered_group, reached_cons hlocate]
    congr 1
    split <;> rfl

theorem get?_linkCommands {enable : Bool} {links : List BoardLink}
    (h : linkCommands machine controllers id enable commands links = .ok commands') :
    commands'.get? b = furthered id (commands.get? b)
      ((reached machine controllers b Prod.fst links).map fun p r => r.link p.1 p.2.2 enable) := by
  induction links generalizing commands with
  | nil =>
    cases h
    rfl
  | cons l links ih =>
    obtain ⟨board, link⟩ := l
    unfold linkCommands at h
    split at h
    · cases h
    next b' n hlocate =>
    have hfirst : locate machine controllers (Prod.fst (board, link)) = .ok (b', n) := hlocate
    rw [ih h, furthered_group, reached_cons hfirst]
    congr 1
    split <;> rfl

def requested (id : ℕ) (power : Bool) (boards : List (ℤ × Board)) (links : List (ℤ × BoardLink))
    (enable : Bool) : Option AtomicRequests :=
  if boards = [] ∧ links = [] then none
  else some
    { onDone := id
      powerOnBoards := if power then boards.map Prod.fst else []
      powerOffBoards := if power then [] else boards.map Prod.fst
      linkRequests := links.map fun p => ⟨p.1, p.2.2, enable⟩ }

theorem furthered_powers (boards : List (ℤ × Board)) :
    furthered id none (boards.map fun p r => r.power p.1 power) =
      requested id power boards [] false := by
  have hfold (r : AtomicRequests) :
      (boards.map fun (p : ℤ × Board) (r : AtomicRequests) => r.power p.1 power).foldl
        (fun r f => f r) r = { r with
          powerOnBoards := r.powerOnBoards ++ if power then boards.map Prod.fst else []
          powerOffBoards := r.powerOffBoards ++ if power then [] else boards.map Prod.fst } := by
    induction boards generalizing r with
    | nil => simp
    | cons p boards ih =>
      rw [List.map_cons, List.foldl_cons, ih]
      cases power <;> simp [AtomicRequests.power]
  unfold furthered requested
  by_cases hnil : boards = []
  · simp [hnil]
  · simp [hnil, hfold, AtomicRequests.new]

theorem furthered_links {boards : List (ℤ × Board)} {enable : Bool} (links : List (ℤ × BoardLink)) :
    furthered id (requested id power boards [] false)
        (links.map fun p r => r.link p.1 p.2.2 enable) =
      requested id power boards links enable := by
  have hfold (r : AtomicRequests) :
      (links.map fun (p : ℤ × BoardLink) (r : AtomicRequests) => r.link p.1 p.2.2 enable).foldl
        (fun r f => f r) r = { r with
          linkRequests := r.linkRequests ++ links.map fun p => ⟨p.1, p.2.2, enable⟩ } := by
    induction links generalizing r with
    | nil => simp
    | cons p links ih =>
      rw [List.map_cons, List.foldl_cons, ih]
      simp [AtomicRequests.link]
  unfold furthered requested
  by_cases hnil : links = []
  · simp [hnil]
  · by_cases hboards : boards = []
    · simp [hnil, hboards, hfold, AtomicRequests.new]
    · simp [hnil, hboards, hfold]

theorem frameCommands_requested (h : c.frameCommands id power linkEnable = .ok commands) :
    ∃ machine controllers boards links, (c.job id).allocatedMachine = some machine ∧
      c.bmpControllers.get? machine.name = some controllers ∧ (c.job id).boards = some boards ∧
      (∀ enable, linkEnable = some enable → ∃ periphery, (c.job id).periphery = some periphery ∧
        links = c.linkOrder.list periphery) ∧
      (linkEnable = none → links = []) ∧
      ∀ b, commands.get? b = requested id power
        (reached machine controllers b (fun board => board) (c.boardOrder.list boards))
        (reached machine controllers b Prod.fst links) (linkEnable.getD false) := by
  unfold frameCommands at h
  split at h
  · cases h
  next machine hmachine =>
  split at h
  · cases h
  next controllers hcontrollers =>
  split at h
  next boards hboards =>
    obtain ⟨powers, hpowers, h⟩ := bind_eq_ok.mp h
    have hget (b : ℕ) : powers.get? b = requested id power
        (reached machine controllers b (fun board => board) (c.boardOrder.list boards)) [] false := by
      rw [get?_powerCommands hpowers, Dict.get?_empty, furthered_powers]
    cases linkEnable with
    | none =>
      cases h
      exact ⟨machine, controllers, boards, [], hmachine, hcontrollers, hboards,
        (fun _ hn => by cases hn), fun _ => rfl, hget⟩
    | some enable =>
      dsimp only at h
      split at h
      · next periphery hperiphery =>
        refine ⟨machine, controllers, boards, c.linkOrder.list periphery, hmachine, hcontrollers,
          hboards, fun _ _ => ⟨periphery, hperiphery, rfl⟩, fun hn => ?_, fun b => ?_⟩
        · cases hn
        · rw [get?_linkCommands h, hget, furthered_links]
          rfl
      · cases h
  · cases h

/-- The request powers the board, and only this way. -/
def Powers (r : AtomicRequests) (n : ℤ) : Bool → Prop
  | true => n ∈ r.powerOnBoards ∧ n ∉ r.powerOffBoards
  | false => n ∈ r.powerOffBoards ∧ n ∉ r.powerOnBoards

theorem Powers.mem_boards {r : AtomicRequests} (h : Powers r n power) : n ∈ r.boards := by
  cases power with
  | true => exact List.mem_append_left _ (List.mem_append_left _ h.1)
  | false => exact List.mem_append_left _ (List.mem_append_right _ h.1)

structure Orders (id : ℕ) (power : Bool) (c c' : Controller) : Prop where
  requests : ∀ b, ∃ l, (c'.bmp b).requests = (c.bmp b).requests ++ l ∧
    (∀ r ∈ l, r.onDone = id ∧ ∀ n ∈ r.boards, c'.Aims id b n ∧ Powers r n power) ∧
    ∀ n, c'.Aims id b n → ∃ r ∈ l, n ∈ r.boards
  power : (c'.job id).power = some power

theorem Orders.after {c'' : Controller} (h : Orders id power c' c'') (hb : c'.bmp = c.bmp) :
    Orders id power c c'' :=
  ⟨fun b => hb ▸ h.requests b, h.power⟩

def Inside (c : Controller) (id : ℕ) : Prop :=
  ∀ board ∈ c.Concerned id, ∃ boards, (c.job id).boards = some boards ∧ board ∈ boards

theorem mem_boards_requested {boards : List (ℤ × Board)} {links : List (ℤ × BoardLink)}
    {enable : Bool} {r : AtomicRequests} (h : requested id power boards links enable = some r) :
    r.onDone = id ∧ (∀ n ∈ r.boards, n ∈ boards.map Prod.fst ∨ n ∈ links.map Prod.fst) ∧
      ∀ n ∈ boards.map Prod.fst, Powers r n power := by
  unfold requested at h
  split at h
  · cases h
  cases h
  refine ⟨rfl, fun n hn => ?_, fun n hn => ?_⟩
  · simp only [AtomicRequests.boards, List.mem_append, List.map_map] at hn
    obtain (hn | hn) | hn := hn
    · cases power with
      | true => exact .inl hn
      | false => cases hn
    · cases power with
      | true => cases hn
      | false => exact .inl hn
    · exact .inr hn
  · cases power with
    | true => exact ⟨hn, List.not_mem_nil⟩
    | false => exact ⟨hn, List.not_mem_nil⟩

theorem requested_isSome {boards : List (ℤ × Board)} {links : List (ℤ × BoardLink)}
    {enable : Bool} (h : boards ≠ []) : (requested id power boards links enable).isSome := by
  rw [requested, if_neg fun hnil => h hnil.1]
  rfl

theorem frameCommands_powers (hinside : c.Inside id)
    (h : c.frameCommands id power linkEnable = .ok commands) (b : ℕ) :
    (∀ r, commands.get? b = some r →
      r.onDone = id ∧ ∀ n ∈ r.boards, c.Aims id b n ∧ Powers r n power) ∧
    ∀ n, c.Aims id b n → ∃ r, commands.get? b = some r ∧ n ∈ r.boards := by
  obtain ⟨machine, controllers, boards, links, hmachine, hcontrollers, hboards, hlinks, hnone,
    hget⟩ := frameCommands_requested h
  have hown (board : Board) (hboard : board ∈ c.Concerned id) : board ∈ boards := by
    obtain ⟨boards', hb, hin⟩ := hinside board hboard
    obtain rfl := Option.some.inj (hboards.symm.trans hb)
    exact hin
  have haims (n : ℤ) : c.Aims id b n ↔
      ∃ board ∈ boards, locate machine controllers board = .ok (b, n) := by
    constructor
    · rintro ⟨machine', controllers', board, hm, hc, hboard, hlocate⟩
      obtain rfl := Option.some.inj (hmachine.symm.trans hm)
      obtain rfl := Option.some.inj (hcontrollers.symm.trans hc)
      exact ⟨board, hown board hboard, hlocate⟩
    · rintro ⟨board, hboard, hlocate⟩
      exact ⟨machine, controllers, board, hmachine, hcontrollers, .inl ⟨boards, hboards, hboard⟩,
        hlocate⟩
  have hpowered (n : ℤ) : n ∈ (reached machine controllers b (fun board => board)
      (c.boardOrder.list boards)).map Prod.fst ↔ c.Aims id b n := by
    rw [haims, List.mem_map]
    constructor
    · rintro ⟨⟨n', board⟩, hin, rfl⟩
      obtain ⟨hboard, hlocate⟩ := mem_reached.mp hin
      exact ⟨board, (c.boardOrder.mem _ _).mp hboard, hlocate⟩
    · rintro ⟨board, hboard, hlocate⟩
      exact ⟨(n, board), mem_reached.mpr ⟨(c.boardOrder.mem _ _).mpr hboard, hlocate⟩, rfl⟩
  -- A link is between boards that are powered as well.
  have hlinked (n : ℤ) (hn : n ∈ (reached machine controllers b Prod.fst links).map Prod.fst) :
      c.Aims id b n := by
    obtain ⟨⟨n', l⟩, hl, rfl⟩ := List.mem_map.mp hn
    obtain ⟨hl, hlocate⟩ := mem_reached.mp hl
    cases linkEnable with
    | none =>
      rw [hnone rfl] at hl
      cases hl
    | some enable =>
      obtain ⟨periphery, hperiphery, rfl⟩ := hlinks enable rfl
      refine (haims _).mpr ⟨l.1, hown l.1 (.inr ⟨periphery, hperiphery, l, ?_, rfl⟩), hlocate⟩
      exact (c.linkOrder.mem _ _).mp hl
  refine ⟨fun r hr => ?_, fun n hn => ?_⟩
  · rw [hget] at hr
    obtain ⟨hdone, hmem, hpowers⟩ := mem_boards_requested hr
    refine ⟨hdone, fun n hn => ?_⟩
    have haim : c.Aims id b n := by
      obtain hn | hn := hmem n hn
      · exact (hpowered n).mp hn
      · exact hlinked n hn
    exact ⟨haim, hpowers n ((hpowered n).mpr haim)⟩
  · have hin := (hpowered n).mpr hn
    have hne := List.ne_nil_of_mem (List.mem_map.mp hin).choose_spec.1
    have hsome : (commands.get? b).isSome := by
      rw [hget]
      exact requested_isSome hne
    obtain ⟨r, hr⟩ := Option.isSome_iff_exists.mp hsome
    refine ⟨r, hr, ?_⟩
    rw [hget] at hr
    obtain ⟨-, -, hpowers⟩ := mem_boards_requested hr
    exact (hpowers n hin).mem_boards

theorem aims_congr (hm : (c'.job id).allocatedMachine = (c.job id).allocatedMachine)
    (hb : (c'.job id).boards = (c.job id).boards)
    (hp : (c'.job id).periphery = (c.job id).periphery)
    (hc : c'.bmpControllers = c.bmpControllers) : c'.Aims id b n ↔ c.Aims id b n := by
  unfold Aims
  rw [hm, hc, concerned_congr hb hp]

theorem inside_congr (hb : (c'.job id).boards = (c.job id).boards)
    (hp : (c'.job id).periphery = (c.job id).periphery) : c'.Inside id ↔ c.Inside id := by
  unfold Inside
  rw [hb, concerned_congr hb hp]

theorem setJobPowerAndLinks_orders :
    wp (setJobPowerAndLinks id power linkEnable)
      (fun _ c' => c'.Inside id → Orders id power c c') (fun _ _ => True) c := by
  apply setJobPowerAndLinks_wp
  · intro commands hcommands hinside
    have hself : (c.commanded id power commands.entries).job id = _ := job_commanded power _
    rw [if_pos rfl] at hself
    rw [inside_congr (c := c) (by rw [hself]) (by rw [hself])] at hinside
    have haims (b : ℕ) (n : ℤ) :
        (c.commanded id power commands.entries).Aims id b n ↔ c.Aims id b n :=
      aims_congr (by rw [hself]) (by rw [hself]) (by rw [hself]) rfl
    refine ⟨fun b => ⟨_, rfl, fun r hr => ?_, fun n hn => ?_⟩, by rw [hself]⟩
    · obtain ⟨p, hp, rfl⟩ := List.mem_map.mp hr
      obtain ⟨hp, hpb⟩ := List.mem_filter.mp hp
      have hsome : commands.get? b = some p.2 := by
        rw [← of_decide_eq_true hpb]
        exact Dict.get?_eq_some.mpr hp
      obtain ⟨hdone, hpowers⟩ := (frameCommands_powers hinside hcommands b).1 p.2 hsome
      exact ⟨hdone, fun n hn => ⟨(haims b n).mpr (hpowers n hn).1, (hpowers n hn).2⟩⟩
    · obtain ⟨r, hr, hn⟩ := (frameCommands_powers hinside hcommands b).2 n ((haims b n).mp hn)
      refine ⟨r, List.mem_map.mpr ⟨(b, r), List.mem_filter.mpr ⟨?_, decide_eq_true rfl⟩, rfl⟩, hn⟩
      exact Dict.get?_eq_some.mp hr
  · exact fun _ _ => trivial
  · exact fun _ _ _ _ _ => trivial

theorem onAllocate_orders {name : String} {boards : Finset Board} {periphery : Finset BoardLink}
    {torus : WrapAround} :
    wp (onAllocate id name boards periphery torus)
      (fun _ c' => c'.Inside id → Orders id true c c') (fun _ _ => True) c := by
  apply onAllocate_wp
  · exact fun _ => trivial
  · exact fun _ => trivial
  · exact fun _ _ _ _ _ => trivial
  · exact fun _ _ _ _ _ => trivial
  · exact fun _ _ _ _ _ _ _ _ _ => trivial
  · intro machine origin top connections c' _ ha
    exact setJobPowerAndLinks_orders.mono (fun _ _ ho hinside => (ho hinside).after ha.bmp)
      fun _ _ _ => trivial

theorem onFree_orders {reason : Option String} (hboards : (c.job id).boards ≠ none) :
    wp (onFree id reason) (fun _ c' => c'.Inside id → Orders id false c c') (fun _ _ => True)
      c := by
  apply onFree_wp
  · exact fun _ => trivial
  · exact fun _ _ => trivial
  intro machine _ _
  apply teardownJob_wp
  · exact fun _ => trivial
  · exact fun _ hnone => absurd hnone hboards
  · intro _ _
    exact setJobPowerAndLinks_orders.mono (fun _ _ ho hinside => (ho hinside).after rfl)
      fun _ _ _ => trivial

end SpallocServer.Controller
