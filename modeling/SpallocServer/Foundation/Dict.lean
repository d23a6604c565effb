import Mathlib.Data.List.Nodup

namespace SpallocServer.Foundation

/-- A dictionary that remembers the order in which its keys were added. -/
structure Dict (κ ν : Type) where
  entries : List (κ × ν)
  nodup : (entries.map Prod.fst).Nodup

namespace Dict

variable {κ ν : Type}

@[ext] theorem ext {d e : Dict κ ν} (h : d.entries = e.entries) : d = e := by
  cases d
  cases e
  cases h
  rfl

def empty : Dict κ ν := ⟨[], List.nodup_nil⟩

def keys (d : Dict κ ν) : List κ := d.entries.map Prod.fst

def values (d : Dict κ ν) : List ν := d.entries.map Prod.snd

def isEmpty (d : Dict κ ν) : Bool := d.entries.isEmpty

variable [DecidableEq κ]

def lookup (k : κ) : List (κ × ν) → Option ν
  | [] => none
  | (k', v) :: l => if k' = k then some v else lookup k l

def get? (d : Dict κ ν) (k : κ) : Option ν := lookup k d.entries

def put (k : κ) (v : ν) : List (κ × ν) → List (κ × ν)
  | [] => [(k, v)]
  | (k', v') :: l => if k' = k then (k, v) :: l else (k', v') :: put k v l

theorem mem_put {k k' : κ} {v : ν} {l : List (κ × ν)} :
    k' ∈ (put k v l).map Prod.fst ↔ k' = k ∨ k' ∈ l.map Prod.fst := by
  induction l with
  | nil => simp [put]
  | cons p l ih =>
    obtain ⟨k₁, v₁⟩ := p
    unfold put
    split
    · next h => simp [h]
    · simp only [List.map_cons, List.mem_cons, ih]
      tauto

theorem nodup_put {k : κ} {v : ν} {l : List (κ × ν)} (h : (l.map Prod.fst).Nodup) :
    ((put k v l).map Prod.fst).Nodup := by
  induction l with
  | nil => simp [put]
  | cons p l ih =>
    obtain ⟨k', v'⟩ := p
    rw [List.map_cons, List.nodup_cons] at h
    unfold put
    split
    · next hk =>
      subst hk
      exact List.nodup_cons.mpr h
    · next hk =>
      refine List.nodup_cons.mpr ⟨?_, ih h.2⟩
      rw [mem_put]
      exact not_or.mpr ⟨hk, h.1⟩

def set (d : Dict κ ν) (k : κ) (v : ν) : Dict κ ν := ⟨put k v d.entries, nodup_put d.nodup⟩

def erase (d : Dict κ ν) (k : κ) : Dict κ ν :=
  ⟨d.entries.filter (·.1 ≠ k), d.nodup.sublist (List.filter_sublist.map _)⟩

theorem nodup_moved {k : κ} {v : ν} {l : List (κ × ν)} (h : (l.map Prod.fst).Nodup) :
    ((l.filter (·.1 ≠ k) ++ [(k, v)]).map Prod.fst).Nodup := by
  rw [List.map_append, List.nodup_append]
  refine ⟨h.sublist (List.filter_sublist.map _), List.nodup_singleton _, ?_⟩
  intro a ha b hb
  obtain rfl := List.mem_singleton.mp hb
  obtain ⟨p, hp, rfl⟩ := List.mem_map.mp ha
  simpa using (List.mem_filter.mp hp).2

/-- `move_to_end` -/
def moveToEnd (d : Dict κ ν) (k : κ) : Dict κ ν :=
  match d.get? k with
  | none => d
  | some v => ⟨d.entries.filter (·.1 ≠ k) ++ [(k, v)], nodup_moved d.nodup⟩

@[simp] theorem get?_empty (k : κ) : (empty : Dict κ ν).get? k = none := rfl

theorem lookup_put (k k' : κ) (v : ν) (l : List (κ × ν)) :
    lookup k' (put k v l) = if k = k' then some v else lookup k' l := by
  induction l with
  | nil => simp [put, lookup]
  | cons p l ih =>
    obtain ⟨k₁, v₁⟩ := p
    unfold put
    split
    · next h =>
      subst h
      by_cases hk : k₁ = k' <;> simp [lookup, hk]
    · next h =>
      simp only [lookup, ih]
      by_cases hk : k₁ = k'
      · subst hk
        simp [Ne.symm h]
      · simp [hk]

theorem get?_set (d : Dict κ ν) (k k' : κ) (v : ν) :
    (d.set k v).get? k' = if k = k' then some v else d.get? k' := lookup_put k k' v d.entries

@[simp] theorem get?_set_self (d : Dict κ ν) (k : κ) (v : ν) :
    (d.set k v).get? k = some v := by
  simp [get?_set]

theorem get?_set_ne (d : Dict κ ν) {k k' : κ} (h : k ≠ k') (v : ν) :
    (d.set k v).get? k' = d.get? k' := by
  simp [get?_set, h]

theorem lookup_filter (k k' : κ) (l : List (κ × ν)) :
    lookup k' (l.filter (·.1 ≠ k)) = if k = k' then none else lookup k' l := by
  induction l with
  | nil => simp [lookup]
  | cons p l ih =>
    obtain ⟨k₁, v₁⟩ := p
    by_cases h : k₁ = k
    · subst h
      by_cases hk : k₁ = k' <;> simp_all [lookup]
    · rw [List.filter_cons_of_pos (by simpa using h)]
      simp only [lookup, ih]
      by_cases hk : k₁ = k'
      · subst hk
        simp [Ne.symm h]
      · simp [hk]

theorem get?_erase (d : Dict κ ν) (k k' : κ) :
    (d.erase k).get? k' = if k = k' then none else d.get? k' := lookup_filter k k' d.entries

@[simp] theorem get?_erase_self (d : Dict κ ν) (k : κ) : (d.erase k).get? k = none := by
  simp [get?_erase]

theorem get?_erase_ne (d : Dict κ ν) {k k' : κ} (h : k ≠ k') :
    (d.erase k).get? k' = d.get? k' := by
  simp [get?_erase, h]

theorem lookup_eq_some {l : List (κ × ν)} (h : (l.map Prod.fst).Nodup) {k : κ} {v : ν} :
    lookup k l = some v ↔ (k, v) ∈ l := by
  induction l with
  | nil => simp [lookup]
  | cons p l ih =>
    obtain ⟨k', v'⟩ := p
    rw [List.map_cons, List.nodup_cons] at h
    unfold lookup
    split
    · next hk =>
      subst hk
      have hn : (k', v) ∉ l := fun hm => h.1 (List.mem_map.mpr ⟨(k', v), hm, rfl⟩)
      simp [hn, eq_comm]
    · next hk =>
      rw [ih h.2, List.mem_cons, Prod.mk.injEq]
      simp [Ne.symm hk]

theorem get?_eq_some {d : Dict κ ν} {k : κ} {v : ν} : d.get? k = some v ↔ (k, v) ∈ d.entries :=
  lookup_eq_some d.nodup

theorem mem_values {d : Dict κ ν} {v : ν} : v ∈ d.values ↔ ∃ k, d.get? k = some v := by
  simp [values, get?_eq_some]

theorem get?_moveToEnd (d : Dict κ ν) (k k' : κ) : (d.moveToEnd k).get? k' = d.get? k' := by
  unfold moveToEnd
  cases hk : d.get? k with
  | none => rfl
  | some v =>
    refine Option.ext fun u => ?_
    rw [get?_eq_some, List.mem_append, List.mem_filter, List.mem_singleton, Prod.mk.injEq,
      get?_eq_some]
    constructor
    · rintro (⟨hm, -⟩ | ⟨rfl, rfl⟩)
      · exact hm
      · exact get?_eq_some.mp hk
    · intro hm
      by_cases hkk : k' = k
      · subst hkk
        exact .inr ⟨rfl, Option.some.inj ((get?_eq_some.mpr hm).symm.trans hk)⟩
      · exact .inl ⟨hm, by simpa using hkk⟩

theorem get?_foldl_moveToEnd (d : Dict κ ν) (l : List κ) (k : κ) :
    (l.foldl moveToEnd d).get? k = d.get? k := by
  induction l generalizing d with
  | nil => rfl
  | cons k' l ih => exact (ih (d.moveToEnd k')).trans (get?_moveToEnd d k' k)

theorem put_eq_append {k : κ} {v : ν} {l : List (κ × ν)} (h : k ∉ l.map Prod.fst) :
    put k v l = l ++ [(k, v)] := by
  induction l with
  | nil => rfl
  | cons p l ih =>
    obtain ⟨k', v'⟩ := p
    rw [List.map_cons, List.mem_cons, not_or] at h
    rw [put, if_neg (Ne.symm h.1), ih h.2, List.cons_append]

theorem mem_keys {d : Dict κ ν} {k : κ} : k ∈ d.keys ↔ ∃ v, d.get? k = some v := by
  simp [keys, get?_eq_some]

theorem get?_eq_none {d : Dict κ ν} {k : κ} : d.get? k = none ↔ k ∉ d.keys := by
  rw [mem_keys, Option.eq_none_iff_forall_ne_some, not_exists]

theorem keys_moveToEnd {d : Dict κ ν} {k : κ} (h : k ∈ d.keys) :
    (d.moveToEnd k).keys = d.keys.filter (· ≠ k) ++ [k] := by
  obtain ⟨v, hv⟩ := mem_keys.mp h
  unfold moveToEnd
  rw [hv]
  change (d.entries.filter (·.1 ≠ k) ++ [(k, v)]).map Prod.fst = _
  rw [List.map_append, keys, List.filter_map]
  rfl

theorem keys_foldl_moveToEnd {d : Dict κ ν} {l : List κ} (hn : l.Nodup) (h : ∀ k ∈ l, k ∈ d.keys) :
    (l.foldl moveToEnd d).keys = d.keys.filter (· ∉ l) ++ l := by
  induction l generalizing d with
  | nil => simp
  | cons k l ih =>
    obtain ⟨hk, hn⟩ := List.nodup_cons.mp hn
    have hmoved := keys_moveToEnd (h k List.mem_cons_self)
    rw [List.foldl_cons, ih hn, hmoved, List.filter_append, List.filter_filter]
    · have hlast : [k].filter (· ∉ l) = [k] := by simp [hk]
      have hrest : (fun k' => decide (k' ∉ l) && decide (k' ≠ k)) =
          fun k' => decide (k' ∉ k :: l) := by
        funext k'
        simp [Bool.and_comm]
      rw [hlast, hrest, List.append_assoc]
      rfl
    · intro k' hk'
      rw [mem_keys, get?_moveToEnd, ← mem_keys]
      exact h k' (List.mem_cons_of_mem k hk')

theorem keys_reordered {d : Dict κ ν} {l : List κ} (hn : l.Nodup) (h : ∀ k, k ∈ d.keys ↔ k ∈ l) :
    (l.foldl moveToEnd d).keys = l := by
  rw [keys_foldl_moveToEnd hn fun k hk => (h k).mpr hk]
  have hnone : d.keys.filter (· ∉ l) = [] := by
    rw [List.filter_eq_nil_iff]
    intro k hk
    simpa using (h k).mp hk
  rw [hnone, List.nil_append]

theorem entries_eq_filterMap (d : Dict κ ν) :
    d.entries = d.keys.filterMap fun k => (d.get? k).map fun v => (k, v) := by
  have hentry : ∀ p ∈ d.entries, (d.get? p.1).map (fun v => (p.1, v)) = some p := by
    intro p hp
    rw [get?_eq_some.mpr hp]
    rfl
  rw [keys, List.filterMap_map]
  exact ((List.filterMap_congr hentry).trans List.filterMap_some).symm

theorem ext_of_keys {d e : Dict κ ν} (hkeys : d.keys = e.keys) (h : ∀ k, d.get? k = e.get? k) :
    d = e := by
  apply ext
  rw [entries_eq_filterMap d, entries_eq_filterMap e, hkeys]
  simp only [h]

theorem foldl_moveToEnd_keys (d : Dict κ ν) : d.keys.foldl moveToEnd d = d :=
  ext_of_keys (keys_reordered d.nodup fun _ => Iff.rfl) (get?_foldl_moveToEnd d d.keys)

theorem values_set_new {d : Dict κ ν} {k : κ} (h : d.get? k = none) (v : ν) :
    (d.set k v).values = d.values ++ [v] := by
  have hp : put k v d.entries = d.entries ++ [(k, v)] := put_eq_append (get?_eq_none.mp h)
  change (put k v d.entries).map Prod.snd = _
  rw [hp, List.map_append]
  rfl

theorem get?_of_erase {d : Dict κ ν} {k k' : κ} {v : ν} (h : (d.erase k).get? k' = some v) :
    d.get? k' = some v := by
  rw [get?_erase] at h
  split at h
  · cases h
  · exact h

theorem values_erase {d : Dict κ ν} [DecidableEq ν] {k : κ} {v : ν} (h : d.get? k = some v)
    (hinj : ∀ k', d.get? k' = some v → k' = k) :
    (d.erase k).values = d.values.filter (· ≠ v) := by
  change (d.entries.filter (·.1 ≠ k)).map Prod.snd = (d.entries.map Prod.snd).filter (· ≠ v)
  rw [List.filter_map]
  refine congrArg _ (List.filter_congr fun p hp => ?_)
  have hp' : d.get? p.1 = some p.2 := get?_eq_some.mpr hp
  simp only [Function.comp_apply, decide_eq_decide, ne_eq, not_iff_not]
  constructor
  · intro hk
    rw [hk, h] at hp'
    exact (Option.some.inj hp').symm
  · intro hv
    rw [hv] at hp'
    exact hinj _ hp'

theorem values_erase_sublist (d : Dict κ ν) (k : κ) : (d.erase k).values.Sublist d.values :=
  List.filter_sublist.map _

theorem values_nodup {d : Dict κ ν}
    (hinj : ∀ k k' v, d.get? k = some v → d.get? k' = some v → k = k') : d.values.Nodup := by
  refine (List.Nodup.of_map _ d.nodup).map_on fun p hp q hq he => ?_
  have hp' : d.get? p.1 = some p.2 := get?_eq_some.mpr hp
  have hq' : d.get? q.1 = some q.2 := get?_eq_some.mpr hq
  exact Prod.ext (hinj _ _ _ hp' (he ▸ hq')) he

theorem keys_set_of_nil {d : Dict κ ν} (h : d.keys = []) (k : κ) (v : ν) :
    (d.set k v).keys = [k] := by
  have hp : put k v d.entries = [(k, v)] := by
    rw [List.map_eq_nil_iff.mp h]
    rfl
  change (put k v d.entries).map Prod.fst = [k]
  rw [hp]
  rfl

theorem eq_empty_of_get? {d : Dict κ ν} (h : ∀ k, d.get? k = none) : d = empty := by
  refine ext (List.eq_nil_iff_forall_not_mem.mpr fun p hp => ?_)
  have hs : d.get? p.1 = some p.2 := get?_eq_some.mpr hp
  rw [h] at hs
  cases hs

/-- `pop(next(iter(...)))` -/
def dropFirst (d : Dict κ ν) : Dict κ ν :=
  ⟨d.entries.tail, d.nodup.sublist ((List.tail_sublist _).map _)⟩

theorem get?_dropFirst {d : Dict κ ν} {k : κ} {v : ν} (h : d.dropFirst.get? k = some v) :
    d.get? k = some v := get?_eq_some.mpr (List.mem_of_mem_tail (get?_eq_some.mp h))

theorem mem_keys_set {d : Dict κ ν} {k k' : κ} {v : ν} :
    k' ∈ (d.set k v).keys ↔ k' = k ∨ k' ∈ d.keys := mem_put

/-- `==` of dictionaries. -/
def Same (d e : Dict κ ν) : Prop := ∀ k, d.get? k = e.get? k

theorem get?_of_same_entries {d e : Dict κ ν} (h : ∀ p ∈ d.entries, e.get? p.1 = some p.2)
    {k : κ} {v : ν} (hk : d.get? k = some v) : e.get? k = some v := h (k, v) (get?_eq_some.mp hk)

theorem same_iff {d e : Dict κ ν} : d.Same e ↔
    (∀ p ∈ d.entries, e.get? p.1 = some p.2) ∧ ∀ p ∈ e.entries, d.get? p.1 = some p.2 := by
  constructor
  · intro h
    refine ⟨fun p hp => ?_, fun p hp => ?_⟩
    · rw [← h p.1]
      exact get?_eq_some.mpr hp
    · rw [h p.1]
      exact get?_eq_some.mpr hp
  · intro h k
    apply Option.ext
    exact fun v => ⟨get?_of_same_entries h.1, get?_of_same_entries h.2⟩

instance [DecidableEq ν] (d e : Dict κ ν) : Decidable (d.Same e) :=
  decidable_of_iff _ same_iff.symm

theorem Same.refl (d : Dict κ ν) : d.Same d := fun _ => rfl

theorem Same.trans {d e f : Dict κ ν} (h : d.Same e) (h' : e.Same f) : d.Same f :=
  fun k => (h k).trans (h' k)

theorem Same.symm {d e : Dict κ ν} (h : d.Same e) : e.Same d := fun k => (h k).symm

theorem inj_of_nodup {d : Dict κ ν} (h : d.values.Nodup) {k k' : κ} {v : ν}
    (hk : d.get? k = some v) (hk' : d.get? k' = some v) : k = k' :=
  congrArg Prod.fst (List.inj_on_of_nodup_map h (get?_eq_some.mp hk) (get?_eq_some.mp hk') rfl)

end Dict

end SpallocServer.Foundation
