import Mathlib.Data.List.Induction
import Mathlib.Data.List.Sort
import Mathlib.Order.Lattice

/-! Lists of keyed values in which a key may stand more than once. What a reader of such a list can
observe is the list of values under each key, in order: assignment changes the first of them, and a
stable sort by key depends on nothing else. -/

namespace OhMyPi.KeyedList

section

variable {κ ν : Type*} [DecidableEq κ]

/-- The values under `key`, in order. -/
def valuesAt (key : κ) : List (κ × ν) → List ν
  | [] => []
  | (k, v) :: l => if k = key then v :: valuesAt key l else valuesAt key l

/-- The first value under `key`. -/
def first (key : κ) : List (κ × ν) → Option ν
  | [] => none
  | (k, v) :: l => if k = key then some v else first key l

/-- Replaces the first value under `key`, or adds one at the end. -/
def assign (key : κ) (value : ν) : List (κ × ν) → List (κ × ν)
  | [] => [(key, value)]
  | (k, v) :: l => if k = key then (k, value) :: l else (k, v) :: assign key value l

theorem first_eq_head? (key : κ) (l : List (κ × ν)) : first key l = (valuesAt key l).head? := by
  induction l with
  | nil => rfl
  | cons p l ih =>
    obtain ⟨k, v⟩ := p
    by_cases hk : k = key <;> simp [first, valuesAt, hk, ih]

theorem valuesAt_assign_self (key : κ) (value : ν) (l : List (κ × ν)) :
    valuesAt key (assign key value l) = value :: (valuesAt key l).tail := by
  induction l with
  | nil => simp [assign, valuesAt]
  | cons p l ih =>
    obtain ⟨k, v⟩ := p
    by_cases hk : k = key <;> simp [assign, valuesAt, hk, ih]

theorem valuesAt_assign_ne {key key' : κ} (h : key' ≠ key) (value : ν) (l : List (κ × ν)) :
    valuesAt key' (assign key value l) = valuesAt key' l := by
  induction l with
  | nil => simp [assign, valuesAt, h.symm]
  | cons p l ih =>
    obtain ⟨k, v⟩ := p
    by_cases hk : k = key
    · subst hk
      simp [assign, valuesAt, h.symm]
    · rw [assign, if_neg hk, valuesAt, valuesAt, ih]

theorem first_assign_self (key : κ) (value : ν) (l : List (κ × ν)) :
    first key (assign key value l) = some value := by
  rw [first_eq_head?, valuesAt_assign_self]
  rfl

theorem first_assign_ne {key key' : κ} (h : key' ≠ key) (value : ν) (l : List (κ × ν)) :
    first key' (assign key value l) = first key' l := by
  rw [first_eq_head?, valuesAt_assign_ne h, first_eq_head?]

theorem eq_or_mem_of_mem_assign {key : κ} {value : ν} {p : κ × ν} {l : List (κ × ν)}
    (h : p ∈ assign key value l) : p = (key, value) ∨ p ∈ l := by
  induction l with
  | nil => exact .inl (List.mem_singleton.1 h)
  | cons q l ih =>
    obtain ⟨k, v⟩ := q
    rw [assign] at h
    split at h
    · next hk =>
      rcases List.mem_cons.1 h with h | h
      · exact .inl (by rw [h, hk])
      · exact .inr (List.mem_cons_of_mem _ h)
    · rcases List.mem_cons.1 h with h | h
      · exact .inr (by rw [h]; exact List.mem_cons_self)
      · exact (ih h).imp_right (List.mem_cons_of_mem _)

theorem mem_keys_assign {key key' : κ} {value : ν} {l : List (κ × ν)} :
    key' ∈ (assign key value l).map Prod.fst ↔ key' = key ∨ key' ∈ l.map Prod.fst := by
  induction l with
  | nil => simp [assign]
  | cons p l ih =>
    obtain ⟨k, v⟩ := p
    by_cases hk : k = key
    · subst hk
      simp [assign]
    · rw [assign, if_neg hk, List.map_cons, List.mem_cons, ih, List.map_cons, List.mem_cons]
      tauto

/-! ### Distinct keys -/

/-- Removes the first value under `key` and puts the last entry in its place. -/
def swapRemove (key : κ) : List (κ × ν) → List (κ × ν)
  | [] => []
  | (k, v) :: l =>
    if k = key then l.getLast?.toList ++ l.dropLast else (k, v) :: swapRemove key l

theorem first_eq_some_iff {key : κ} {value : ν} {l : List (κ × ν)} (h : (l.map Prod.fst).Nodup) :
    first key l = some value ↔ (key, value) ∈ l := by
  induction l with
  | nil => simp [first]
  | cons p l ih =>
    obtain ⟨k, v⟩ := p
    obtain ⟨hk, hl⟩ := List.nodup_cons.1 h
    rw [first]
    split
    next heq =>
      subst heq
      have hnot : (k, value) ∉ l := fun hmem => hk (List.mem_map.2 ⟨_, hmem, rfl⟩)
      simp [hnot, eq_comm]
    next hne => simp [ih hl, Ne.symm hne]

theorem perm_swapRemove (key : κ) (l : List (κ × ν)) :
    (swapRemove key l).Perm (l.eraseP fun p => p.1 = key) := by
  induction l with
  | nil => exact .nil
  | cons p l ih =>
    obtain ⟨k, v⟩ := p
    by_cases hk : k = key
    · rw [swapRemove, if_pos hk, List.eraseP_cons_of_pos (by simpa using hk)]
      cases l using List.reverseRecOn with
      | nil => exact .nil
      | append_singleton l q =>
        rw [List.getLast?_concat, List.dropLast_concat, Option.toList_some]
        exact List.perm_append_comm
    · rw [swapRemove, if_neg hk, List.eraseP_cons_of_neg (by simpa using hk)]
      exact ih.cons _

theorem nodup_swapRemove {key : κ} {l : List (κ × ν)} (h : (l.map Prod.fst).Nodup) :
    ((swapRemove key l).map Prod.fst).Nodup := by
  have hperm := (perm_swapRemove key l).map Prod.fst
  rw [hperm.nodup_iff]
  exact h.sublist (List.eraseP_sublist.map Prod.fst)

theorem first_swapRemove_ne {key key' : κ} (hne : key' ≠ key) {l : List (κ × ν)}
    (h : (l.map Prod.fst).Nodup) : first key' (swapRemove key l) = first key' l := by
  apply Option.ext
  intro value
  rw [first_eq_some_iff (nodup_swapRemove h), first_eq_some_iff h, (perm_swapRemove key l).mem_iff]
  exact List.mem_eraseP_of_neg (by simpa using hne)

theorem first_eq_none_iff {key : κ} {l : List (κ × ν)} :
    first key l = none ↔ key ∉ l.map Prod.fst := by
  induction l with
  | nil => simp [first]
  | cons p l ih =>
    obtain ⟨k, v⟩ := p
    rw [first]
    split
    next heq => simp [heq]
    next hne => simp [ih, Ne.symm hne]

theorem first_swapRemove_self {key : κ} {l : List (κ × ν)} (h : (l.map Prod.fst).Nodup) :
    first key (swapRemove key l) = none := by
  rw [first_eq_none_iff, ((perm_swapRemove key l).map Prod.fst).mem_iff]
  induction l with
  | nil => simp
  | cons p l ih =>
    obtain ⟨k, v⟩ := p
    obtain ⟨hk, hl⟩ := List.nodup_cons.1 h
    by_cases heq : k = key
    · rw [List.eraseP_cons_of_pos (by simpa using heq), ← heq]
      exact hk
    · rw [List.eraseP_cons_of_neg (by simpa using heq), List.map_cons, List.mem_cons, not_or]
      exact ⟨Ne.symm heq, ih hl⟩

theorem nodup_assign {key : κ} {value : ν} {l : List (κ × ν)} (h : (l.map Prod.fst).Nodup) :
    ((assign key value l).map Prod.fst).Nodup := by
  induction l with
  | nil => simp [assign]
  | cons p l ih =>
    obtain ⟨k, v⟩ := p
    obtain ⟨hk, hl⟩ := List.nodup_cons.1 h
    rw [assign]
    split
    next => exact h
    next hne =>
      rw [List.map_cons, List.nodup_cons, mem_keys_assign]
      refine ⟨?_, ih hl⟩
      rintro (heq | hmem)
      · exact hne heq
      · exact hk hmem

/-- Removes every value under `key`. -/
def remove (key : κ) (l : List (κ × ν)) : List (κ × ν) := l.filter fun p => p.1 ≠ key

theorem first_remove_self (key : κ) (l : List (κ × ν)) : first key (remove key l) = none := by
  rw [first_eq_none_iff, List.mem_map]
  rintro ⟨p, hp, rfl⟩
  simp [remove] at hp

theorem first_filter {key : κ} (keep : κ → Bool) (hkeep : keep key = true) (l : List (κ × ν)) :
    first key (l.filter fun p => keep p.1) = first key l := by
  induction l with
  | nil => rfl
  | cons p l ih =>
    obtain ⟨k, v⟩ := p
    by_cases hk : k = key
    · subst hk
      simp [first, hkeep]
    · cases hp : keep k with
      | true => simp [first, hk, hp, ih]
      | false => simp [first, hk, hp, ih]

theorem first_remove_ne {key key' : κ} (h : key' ≠ key) (l : List (κ × ν)) :
    first key' (remove key l) = first key' l :=
  first_filter (fun k => k ≠ key) (by simpa using h) l

theorem nodup_remove {key : κ} {l : List (κ × ν)} (h : (l.map Prod.fst).Nodup) :
    ((remove key l).map Prod.fst).Nodup :=
  h.sublist (List.filter_sublist.map Prod.fst)

theorem first_assign (key key' : κ) (value : ν) (l : List (κ × ν)) :
    first key' (assign key value l) = if key' = key then some value else first key' l := by
  split
  · next h => rw [h, first_assign_self]
  · next h => exact first_assign_ne h value l

theorem first_remove (key key' : κ) (l : List (κ × ν)) :
    first key' (remove key l) = if key' = key then none else first key' l := by
  split
  · next h => rw [h, first_remove_self]
  · next h => exact first_remove_ne h l

/-- One value for many keys. -/
theorem first_foldl_assign (keys : List κ) (key : κ) (value : ν) (l : List (κ × ν)) :
    first key (keys.foldl (fun l key => assign key value l) l) =
      if key ∈ keys then some value else first key l := by
  induction keys generalizing l with
  | nil => rfl
  | cons k keys ih =>
    rw [List.foldl_cons, ih, first_assign]
    by_cases hmem : key ∈ keys <;> by_cases hk : key = k <;> simp [hmem, hk]

theorem nodup_foldl_assign (keys : List κ) (value : ν) {l : List (κ × ν)}
    (h : (l.map Prod.fst).Nodup) :
    ((keys.foldl (fun l key => assign key value l) l).map Prod.fst).Nodup := by
  induction keys generalizing l with
  | nil => exact h
  | cons k keys ih => exact ih (nodup_assign h)

theorem first_foldl_remove (keys : List κ) (key : κ) (l : List (κ × ν)) :
    first key (keys.foldl (fun l key => remove key l) l) =
      if key ∈ keys then none else first key l := by
  induction keys generalizing l with
  | nil => rfl
  | cons k keys ih =>
    rw [List.foldl_cons, ih, first_remove]
    by_cases hmem : key ∈ keys <;> by_cases hk : key = k <;> simp [hmem, hk]

theorem nodup_foldl_remove (keys : List κ) {l : List (κ × ν)} (h : (l.map Prod.fst).Nodup) :
    ((keys.foldl (fun l key => remove key l) l).map Prod.fst).Nodup := by
  induction keys generalizing l with
  | nil => exact h
  | cons k keys ih => exact ih (nodup_remove h)

theorem first_append_of_some {key : κ} {value : ν} {l : List (κ × ν)}
    (h : first key l = some value) (l' : List (κ × ν)) : first key (l ++ l') = some value := by
  induction l with
  | nil => cases h
  | cons p l ih =>
    obtain ⟨k, v⟩ := p
    rw [first] at h
    rw [List.cons_append, first]
    split
    next hk => rwa [if_pos hk] at h
    next hk => rw [if_neg hk] at h; exact ih h

theorem first_append_of_none {key : κ} {l : List (κ × ν)} (h : first key l = none)
    (l' : List (κ × ν)) : first key (l ++ l') = first key l' := by
  induction l with
  | nil => rfl
  | cons p l ih =>
    obtain ⟨k, v⟩ := p
    rw [first] at h
    split at h
    next hk => cases h
    next hk => rw [List.cons_append, first, if_neg hk, ih h]

/-! ### Repeated assignment -/

theorem assign_assign_self (key : κ) (value value' : ν) (l : List (κ × ν)) :
    assign key value (assign key value' l) = assign key value l := by
  induction l with
  | nil => simp [assign]
  | cons p l ih =>
    obtain ⟨k, v⟩ := p
    by_cases hk : k = key <;> simp [assign, hk, ih]

/-- Assignments under different keys commute when the list has one of the keys already. -/
theorem assign_comm {key key' : κ} (hne : key' ≠ key) (value value' : ν) {l : List (κ × ν)}
    (hkey : key' ∈ l.map Prod.fst) :
    assign key value (assign key' value' l) = assign key' value' (assign key value l) := by
  induction l with
  | nil => cases hkey
  | cons p l ih =>
    obtain ⟨k, v⟩ := p
    by_cases hk : k = key
    · subst hk
      simp [assign, hne.symm]
    · by_cases hk' : k = key'
      · subst hk'
        simp [assign, hk]
      · have hrest : key' ∈ l.map Prod.fst := by
          rcases List.mem_cons.1 hkey with heq | hmem
          · exact absurd heq.symm hk'
          · exact hmem
        simp [assign, hk, hk', ih hrest]

/-- Assigns one value after the other. -/
def assignAll (values : List (κ × ν)) (l : List (κ × ν)) : List (κ × ν) :=
  values.foldl (fun l p => assign p.1 p.2 l) l

theorem mem_keys_assignAll {values l : List (κ × ν)} {key : κ} :
    key ∈ (assignAll values l).map Prod.fst ↔ key ∈ values.map Prod.fst ∨ key ∈ l.map Prod.fst := by
  induction values generalizing l with
  | nil => simp [assignAll]
  | cons p values ih =>
    rw [assignAll, List.foldl_cons]
    refine ih.trans ?_
    rw [mem_keys_assign, List.map_cons, List.mem_cons]
    tauto

/-- What is under a key after assignments depends on what was under it before. -/
theorem valuesAt_assignAll_congr {l l' : List (κ × ν)}
    (h : ∀ key, valuesAt key l = valuesAt key l') (values : List (κ × ν)) (key : κ) :
    valuesAt key (assignAll values l) = valuesAt key (assignAll values l') := by
  induction values generalizing l l' with
  | nil => exact h key
  | cons p values ih =>
    apply ih
    intro key'
    by_cases hkey : key' = p.1
    · rw [hkey, valuesAt_assign_self, valuesAt_assign_self, h]
    · rw [valuesAt_assign_ne hkey, valuesAt_assign_ne hkey, h]

/-- An assignment that is made again later does not show. -/
theorem assign_assignAll (key : κ) (value value' : ν) {values l : List (κ × ν)}
    (hkeys : ∀ p ∈ values, p.1 ∈ l.map Prod.fst) :
    assign key value (assignAll values (assign key value' l)) =
      assign key value (assignAll values l) := by
  induction values generalizing l value' with
  | nil => exact assign_assign_self ..
  | cons p values ih =>
    obtain ⟨k, v⟩ := p
    have hk : k ∈ l.map Prod.fst := hkeys (k, v) List.mem_cons_self
    have hrest : ∀ q ∈ values, q.1 ∈ (assign k v l).map Prod.fst := fun q hq =>
      mem_keys_assign.2 (.inr (hkeys q (List.mem_cons_of_mem _ hq)))
    rw [assignAll, assignAll, List.foldl_cons, List.foldl_cons]
    by_cases hkey : k = key
    · subst hkey
      rw [assign_assign_self]
    · rw [← assign_comm hkey _ _ hk]
      exact ih _ hrest

/-- Assigning everything once more changes nothing. -/
theorem assignAll_assignAll (values l : List (κ × ν)) :
    assignAll values (assignAll values l) = assignAll values l := by
  induction values using List.reverseRecOn with
  | nil => rfl
  | append_singleton values p ih =>
    have happend : ∀ l', assignAll (values ++ [p]) l' = assign p.1 p.2 (assignAll values l') := by
      intro l'
      rw [assignAll, List.foldl_append]
      rfl
    rw [happend, happend, assign_assignAll, ih]
    intro q hq
    exact mem_keys_assignAll.2 (.inl (List.mem_map_of_mem hq))

/-! ### Values replaced one by one -/

variable {ν' : Type*}

/-- The keys with the images of their values. -/
def mapValues (f : ν → ν') (l : List (κ × ν)) : List (κ × ν') := l.map fun p => (p.1, f p.2)

theorem mapValues_assign (f : ν → ν') (key : κ) (value : ν) (l : List (κ × ν)) :
    mapValues f (assign key value l) = assign key (f value) (mapValues f l) := by
  induction l with
  | nil => rfl
  | cons p l ih =>
    obtain ⟨k, v⟩ := p
    by_cases hk : k = key
    · simp [assign, mapValues, hk]
    · rw [assign, if_neg hk]
      change (k, f v) :: mapValues f (assign key value l) = _
      rw [ih]
      change _ = assign key (f value) ((k, f v) :: mapValues f l)
      rw [assign, if_neg hk]

theorem mapValues_assignAll (f : ν → ν') (values l : List (κ × ν)) :
    mapValues f (assignAll values l) = assignAll (mapValues f values) (mapValues f l) := by
  induction values generalizing l with
  | nil => rfl
  | cons p values ih =>
    rw [assignAll, List.foldl_cons]
    refine (ih _).trans ?_
    rw [mapValues_assign]
    rfl

theorem valuesAt_eq_nil {key : κ} {l : List (κ × ν)} :
    valuesAt key l = [] ↔ ∀ p ∈ l, p.1 ≠ key := by
  induction l with
  | nil => simp [valuesAt]
  | cons p l ih =>
    obtain ⟨k, v⟩ := p
    by_cases hk : k = key <;> simp [valuesAt, hk, ih]

end

section

variable {κ ν : Type*} [LinearOrder κ]

/-- A stable sort by key. -/
def sort (l : List (κ × ν)) : List (κ × ν) := l.insertionSort fun p q => p.1 ≤ q.1

theorem valuesAt_orderedInsert (key : κ) (p : κ × ν) (l : List (κ × ν)) :
    valuesAt key (l.orderedInsert (fun p q => p.1 ≤ q.1) p) = valuesAt key (p :: l) := by
  induction l with
  | nil => rfl
  | cons q l ih =>
    rw [List.orderedInsert_cons]
    split
    · rfl
    · next hle =>
      -- the two keys differ, so at most one of them is `key` and their order is not observed
      have hne : q.1 ≠ p.1 := fun h => hle h.ge
      rw [valuesAt, ih]
      by_cases hp : p.1 = key <;> by_cases hq : q.1 = key
      · exact absurd (hq.trans hp.symm) hne
      all_goals simp [valuesAt, hp, hq]

/-- Sorting keeps the values under each key, in order. -/
theorem valuesAt_sort (key : κ) (l : List (κ × ν)) : valuesAt key (sort l) = valuesAt key l := by
  induction l with
  | nil => rfl
  | cons p l ih =>
    have hstep : sort (p :: l) = (sort l).orderedInsert (fun p q => p.1 ≤ q.1) p := rfl
    rw [hstep, valuesAt_orderedInsert, valuesAt, valuesAt, ih]

theorem pairwise_sort (l : List (κ × ν)) : (sort l).Pairwise fun p q => p.1 ≤ q.1 := by
  have htotal : Std.Total (fun p q : κ × ν => p.1 ≤ q.1) := ⟨fun p q => le_total p.1 q.1⟩
  have htrans : IsTrans (κ × ν) (fun p q => p.1 ≤ q.1) := ⟨fun _ _ _ h h' => le_trans h h'⟩
  exact List.pairwise_insertionSort _ l

/-- Two sorted lists with the same values under each key are the same list. -/
theorem eq_of_pairwise {l l' : List (κ × ν)} (hl : l.Pairwise fun p q => p.1 ≤ q.1)
    (hl' : l'.Pairwise fun p q => p.1 ≤ q.1) (h : ∀ key, valuesAt key l = valuesAt key l') :
    l = l' := by
  induction l generalizing l' with
  | nil =>
    cases l' with
    | nil => rfl
    | cons q l' =>
      have hq := h q.1
      simp [valuesAt] at hq
  | cons p l ih =>
    cases l' with
    | nil =>
      have hp := h p.1
      simp [valuesAt] at hp
    | cons q l' =>
      have hle : ∀ {r s : κ × ν} {m m' : List (κ × ν)}, (r :: m).Pairwise (fun p q => p.1 ≤ q.1) →
          valuesAt s.1 (r :: m) = valuesAt s.1 (s :: m') → r.1 ≤ s.1 := by
        intro r s m m' hsorted hvalues
        by_contra hlt
        have hnone : valuesAt s.1 (r :: m) = [] := by
          apply valuesAt_eq_nil.2
          intro t ht heq
          rcases List.mem_cons.1 ht with rfl | ht
          · exact hlt heq.le
          · exact hlt ((List.rel_of_pairwise_cons hsorted ht).trans heq.le)
        rw [hnone] at hvalues
        simp [valuesAt] at hvalues
      have hkey : p.1 = q.1 := le_antisymm (hle hl (h q.1)) (hle hl' (h p.1).symm)
      have hhead := h q.1
      rw [valuesAt, valuesAt, if_pos hkey, if_pos rfl] at hhead
      obtain ⟨hvalue, htail⟩ := List.cons.inj hhead
      have hpq : p = q := Prod.ext hkey hvalue
      subst hpq
      congr 1
      apply ih hl.of_cons hl'.of_cons
      intro key
      by_cases hk : p.1 = key
      · subst hk
        exact htail
      · simpa [valuesAt, hk] using h key

theorem mapValues_sort {ν' : Type*} (f : ν → ν') (l : List (κ × ν)) :
    mapValues f (sort l) = sort (mapValues f l) := by
  have hinsert : ∀ (p : κ × ν) (l : List (κ × ν)),
      mapValues f (l.orderedInsert (fun p q => p.1 ≤ q.1) p) =
        (mapValues f l).orderedInsert (fun p q => p.1 ≤ q.1) (p.1, f p.2) := by
    intro p l
    induction l with
    | nil => rfl
    | cons q l ih =>
      change _ = ((q.1, f q.2) :: mapValues f l).orderedInsert _ _
      rw [List.orderedInsert_cons, List.orderedInsert_cons]
      split
      · rfl
      · change (q.1, f q.2) :: mapValues f _ = _
        rw [ih]
  induction l with
  | nil => rfl
  | cons p l ih =>
    change mapValues f ((sort l).orderedInsert _ p) = (sort (mapValues f l)).orderedInsert _ _
    rw [hinsert, ih]

/-- A stable sort observes nothing but the values under each key. -/
theorem sort_congr {l l' : List (κ × ν)} (h : ∀ key, valuesAt key l = valuesAt key l') :
    sort l = sort l' := by
  apply eq_of_pairwise (pairwise_sort l) (pairwise_sort l')
  intro key
  rw [valuesAt_sort, valuesAt_sort, h]

end

section

variable {κ ν : Type*}

/-- The rows of a table, key by key. -/
def rows (table : κ → Option ν) (keys : List κ) : List (κ × ν) :=
  keys.filterMap fun key => (table key).map (key, ·)

theorem rows_cons {table : κ → Option ν} {key : κ} {value : ν} (h : table key = some value)
    (keys : List κ) : rows table (key :: keys) = (key, value) :: rows table keys := by
  rw [rows, List.filterMap_cons, h]
  rfl

theorem rows_append (table : κ → Option ν) (keys keys' : List κ) :
    rows table (keys ++ keys') = rows table keys ++ rows table keys' := List.filterMap_append

theorem rows_congr {table table' : κ → Option ν} {keys : List κ}
    (h : ∀ key ∈ keys, table key = table' key) : rows table keys = rows table' keys :=
  List.filterMap_congr fun key hkey => by rw [h key hkey]

theorem mem_of_mem_rows {table : κ → Option ν} {keys : List κ} {key : κ}
    (h : key ∈ (rows table keys).map Prod.fst) : key ∈ keys := by
  obtain ⟨p, hp, rfl⟩ := List.mem_map.1 h
  obtain ⟨k, hk, hrow⟩ := List.mem_filterMap.1 hp
  obtain ⟨v, -, rfl⟩ := Option.map_eq_some_iff.1 hrow
  exact hk

end

section

variable {κ ν : Type*} [DecidableEq κ]

/-- Each key with its last value, in the order in which the keys first stand. -/
def lastWins (l : List (κ × ν)) : List (κ × ν) :=
  rows (fun key => (valuesAt key l).getLast?) (l.map Prod.fst).eraseDups

theorem assign_of_not_mem {key : κ} {value : ν} {l : List (κ × ν)} (h : key ∉ l.map Prod.fst) :
    assign key value l = l ++ [(key, value)] := by
  induction l with
  | nil => rfl
  | cons p l ih =>
    obtain ⟨k, v⟩ := p
    rw [List.map_cons, List.mem_cons, not_or] at h
    rw [assign, if_neg (Ne.symm h.1), ih h.2, List.cons_append]

theorem assign_rows {table : κ → Option ν} {keys : List κ} {key : κ} (hnodup : keys.Nodup)
    (hsome : ∀ key ∈ keys, (table key).isSome = true) (hmem : key ∈ keys) (value : ν) :
    assign key value (rows table keys) = rows (Function.update table key (some value)) keys := by
  induction keys with
  | nil => cases hmem
  | cons k keys ih =>
    obtain ⟨hk, hnodup⟩ := List.nodup_cons.1 hnodup
    obtain ⟨v, hv⟩ := Option.isSome_iff_exists.1 (hsome k List.mem_cons_self)
    rw [rows_cons hv, assign]
    by_cases heq : k = key
    · subst heq
      rw [if_pos rfl, rows_cons (Function.update_self ..)]
      refine congrArg _ (rows_congr fun k' hk' => (Function.update_of_ne ?_ ..).symm)
      exact fun h => hk (h ▸ hk')
    · have hv' : Function.update table key (some value) k = some v := by
        rw [Function.update_of_ne heq, hv]
      rw [if_neg heq, rows_cons hv', ih hnodup (fun k' hk' => hsome k' (List.mem_cons_of_mem _ hk'))
        ((List.mem_cons.1 hmem).resolve_left (Ne.symm heq))]

theorem valuesAt_append (key : κ) (l l' : List (κ × ν)) :
    valuesAt key (l ++ l') = valuesAt key l ++ valuesAt key l' := by
  induction l with
  | nil => rfl
  | cons p l ih =>
    obtain ⟨k, v⟩ := p
    by_cases hk : k = key <;> simp [valuesAt, hk, ih]

theorem getLast?_valuesAt_concat (l : List (κ × ν)) (key : κ) (value : ν) :
    (fun k => (valuesAt k (l ++ [(key, value)])).getLast?) =
      Function.update (fun k => (valuesAt k l).getLast?) key (some value) := by
  funext k
  rw [valuesAt_append]
  by_cases hk : k = key
  · subst hk
    rw [Function.update_self]
    simp [valuesAt]
  · rw [Function.update_of_ne hk]
    simp [valuesAt, Ne.symm hk]

theorem eraseDups_concat (keys : List κ) (key : κ) : (keys ++ [key]).eraseDups =
    if key ∈ keys then keys.eraseDups else keys.eraseDups ++ [key] := by
  rw [List.eraseDups_append]
  split
  · next h => simp [List.removeAll, h]
  · next h => simp [List.removeAll, h, List.eraseDups_cons]

theorem nodup_eraseDups (keys : List κ) : keys.eraseDups.Nodup := by
  induction keys using List.reverseRecOn with
  | nil => exact .nil
  | append_singleton keys key ih =>
    rw [eraseDups_concat]
    split
    · exact ih
    · next h =>
      refine List.nodup_append.2 ⟨ih, List.nodup_singleton _, fun k hk k' hk' heq => h ?_⟩
      rw [← List.mem_singleton.1 hk', ← heq]
      exact List.mem_eraseDups.1 hk

/-- Assigning the members of a list in order leaves each key with its last value. -/
theorem assignAll_nil_eq_lastWins (l : List (κ × ν)) : assignAll l [] = lastWins l := by
  induction l using List.reverseRecOn with
  | nil => rfl
  | append_singleton l p ih =>
    obtain ⟨key, value⟩ := p
    have hstep : assignAll (l ++ [(key, value)]) [] = assign key value (lastWins l) := by
      rw [← ih, assignAll, assignAll, List.foldl_append]
      rfl
    rw [hstep, lastWins, lastWins, getLast?_valuesAt_concat, List.map_append, List.map_singleton,
      eraseDups_concat]
    split
    · next hmem =>
      refine assign_rows (nodup_eraseDups _) (fun k hk => ?_) (List.mem_eraseDups.2 hmem) _
      obtain ⟨p, hp, rfl⟩ := List.mem_map.1 (List.mem_eraseDups.1 hk)
      have hne : valuesAt p.1 l ≠ [] := fun hnil => valuesAt_eq_nil.1 hnil p hp rfl
      rw [List.getLast?_eq_some_getLast hne]
      rfl
    · next hmem =>
      have hne : ∀ k ∈ (l.map Prod.fst).eraseDups, k ≠ key :=
        fun k hk h => hmem (h ▸ List.mem_eraseDups.1 hk)
      rw [assign_of_not_mem fun h => hmem (List.mem_eraseDups.1 (mem_of_mem_rows h)), rows_append,
        rows_cons (Function.update_self ..)]
      exact congrArg (· ++ _) (rows_congr fun k hk => by rw [Function.update_of_ne (hne k hk)])

end

end OhMyPi.KeyedList
