import Mathlib.Data.List.Basic
import Mathlib.Order.Lattice

/-! Finite maps with ordered keys, as the list of their entries in key order. -/

namespace OhMyPi

/-- A finite map: its entries in increasing key order, one for each key. -/
structure OrdMap (κ ν : Type*) [LinearOrder κ] where
  entries : List (κ × ν)
  sorted : entries.Pairwise fun p q => p.1 < q.1

namespace OrdMap

variable {κ ν : Type*} [LinearOrder κ]

@[ext] theorem ext {m m' : OrdMap κ ν} (h : m.entries = m'.entries) : m = m' := by
  cases m
  cases m'
  cases h
  rfl

instance [DecidableEq ν] : DecidableEq (OrdMap κ ν) := fun m m' =>
  decidable_of_iff (m.entries = m'.entries) ⟨OrdMap.ext, fun h => h ▸ rfl⟩

def empty : OrdMap κ ν := ⟨[], .nil⟩

instance : EmptyCollection (OrdMap κ ν) := ⟨empty⟩

/-- The value under a key. -/
def get? (m : OrdMap κ ν) (key : κ) : Option ν := m.entries.lookup key

def contains (m : OrdMap κ ν) (key : κ) : Bool := (m.get? key).isSome

/-- Puts `value` under `key`, in place of what stands there. -/
def insertEntries (key : κ) (value : ν) : List (κ × ν) → List (κ × ν)
  | [] => [(key, value)]
  | (k, v) :: l =>
    if key < k then (key, value) :: (k, v) :: l
    else if key = k then (key, value) :: l
    else (k, v) :: insertEntries key value l

theorem mem_insertEntries {key : κ} {value : ν} {l : List (κ × ν)} {p : κ × ν}
    (h : p ∈ insertEntries key value l) : p = (key, value) ∨ p ∈ l := by
  induction l with
  | nil => simpa [insertEntries] using h
  | cons q l ih =>
    rw [insertEntries] at h
    split at h
    · simpa using h
    split at h
    · rcases List.mem_cons.1 h with h | h
      · exact .inl h
      · exact .inr (List.mem_cons_of_mem _ h)
    · rcases List.mem_cons.1 h with h | h
      · exact .inr (h ▸ List.mem_cons_self)
      · exact (ih h).imp_right (List.mem_cons_of_mem _)

theorem pairwise_insertEntries {key : κ} {value : ν} {l : List (κ × ν)}
    (h : l.Pairwise fun p q => p.1 < q.1) :
    (insertEntries key value l).Pairwise fun p q => p.1 < q.1 := by
  induction l with
  | nil => simp [insertEntries]
  | cons q l ih =>
    rw [insertEntries]
    split
    · next hlt =>
      refine .cons (fun p hp => ?_) h
      rcases List.mem_cons.1 hp with rfl | hp
      · exact hlt
      · exact lt_trans hlt (List.rel_of_pairwise_cons h hp)
    split
    · next heq =>
      subst heq
      exact .cons (fun p hp => List.rel_of_pairwise_cons h hp) h.of_cons
    · next hlt hne =>
      refine .cons (fun p hp => ?_) (ih h.of_cons)
      rcases mem_insertEntries hp with rfl | hp
      · exact lt_of_le_of_ne (not_lt.1 hlt) (Ne.symm hne)
      · exact List.rel_of_pairwise_cons h hp

def insert (m : OrdMap κ ν) (key : κ) (value : ν) : OrdMap κ ν :=
  ⟨insertEntries key value m.entries, pairwise_insertEntries m.sorted⟩

theorem insertEntries_insertEntries (key : κ) (value value' : ν) (l : List (κ × ν)) :
    insertEntries key value (insertEntries key value' l) = insertEntries key value l := by
  induction l with
  | nil => simp [insertEntries]
  | cons q l ih =>
    obtain ⟨k, v⟩ := q
    by_cases hlt : key < k
    · simp [insertEntries, hlt]
    · by_cases heq : key = k
      · simp [insertEntries, heq]
      · simp [insertEntries, hlt, heq, ih]

theorem insert_insert_self (m : OrdMap κ ν) (key : κ) (value value' : ν) :
    (m.insert key value').insert key value = m.insert key value :=
  OrdMap.ext (insertEntries_insertEntries key value value' m.entries)

/-- Keeps the entries that satisfy `p`. -/
def filter (m : OrdMap κ ν) (p : κ → ν → Bool) : OrdMap κ ν :=
  ⟨m.entries.filter fun e => p e.1 e.2, m.sorted.filter _⟩

def erase (m : OrdMap κ ν) (key : κ) : OrdMap κ ν := m.filter fun k _ => k ≠ key

/-- The map of a list of entries, a later one in place of an earlier one with the same key. -/
def ofList (l : List (κ × ν)) : OrdMap κ ν := l.foldl (fun m e => m.insert e.1 e.2) ∅

theorem mem_insert {m : OrdMap κ ν} {key : κ} {value : ν} {p : κ × ν}
    (h : p ∈ (m.insert key value).entries) : p = (key, value) ∨ p ∈ m.entries :=
  mem_insertEntries h

theorem mem_filter {m : OrdMap κ ν} {f : κ → ν → Bool} {p : κ × ν} :
    p ∈ (m.filter f).entries ↔ p ∈ m.entries ∧ f p.1 p.2 = true := List.mem_filter

theorem mem_erase {m : OrdMap κ ν} {key : κ} {p : κ × ν} :
    p ∈ (m.erase key).entries ↔ p ∈ m.entries ∧ p.1 ≠ key := by
  rw [erase, mem_filter]
  simp

theorem lookup_eq_some_iff {l : List (κ × ν)} (h : l.Pairwise fun p q => p.1 < q.1) {key : κ}
    {value : ν} : l.lookup key = some value ↔ (key, value) ∈ l := by
  induction l with
  | nil => simp
  | cons q l ih =>
    obtain ⟨k, v⟩ := q
    rw [List.lookup_cons, List.mem_cons]
    by_cases hk : key = k
    · subst hk
      simp only [beq_self_eq_true]
      constructor
      · intro hv
        exact .inl (by rw [Option.some.inj hv])
      · rintro (hv | hv)
        · rw [(Prod.mk.inj hv).2]
        · exact absurd (List.rel_of_pairwise_cons h hv) (lt_irrefl _)
    · have hne : (key == k) = false := by simpa using hk
      simp [hne, ih h.of_cons, hk]

theorem get?_eq_some_iff {m : OrdMap κ ν} {key : κ} {value : ν} :
    m.get? key = some value ↔ (key, value) ∈ m.entries := lookup_eq_some_iff m.sorted

theorem find?_entries (m : OrdMap κ ν) (key : κ) :
    m.entries.find? (·.1 = key) = (m.get? key).map fun value => (key, value) := by
  have hfind : ∀ l : List (κ × ν),
      l.find? (·.1 = key) = (l.lookup key).map fun value => (key, value) := by
    intro l
    induction l with
    | nil => rfl
    | cons q l ih =>
      obtain ⟨k, v⟩ := q
      by_cases hk : key = k
      · subst hk
        simp
      · have hne : (key == k) = false := by simpa using hk
        simp [List.lookup_cons, hne, Ne.symm hk, ih]
  exact hfind m.entries

theorem mem_insertEntries_self {key : κ} {value : ν} (l : List (κ × ν)) :
    (key, value) ∈ insertEntries key value l := by
  induction l with
  | nil => simp [insertEntries]
  | cons q l ih =>
    rw [insertEntries]
    split
    · exact List.mem_cons_self
    split
    · exact List.mem_cons_self
    · exact List.mem_cons_of_mem _ ih

@[simp] theorem get?_insert_self (m : OrdMap κ ν) (key : κ) (value : ν) :
    (m.insert key value).get? key = some value :=
  get?_eq_some_iff.2 (mem_insertEntries_self _)

theorem mem_insert_of_ne {m : OrdMap κ ν} {key : κ} {value : ν} {p : κ × ν} (hp : p ∈ m.entries)
    (hne : p.1 ≠ key) : p ∈ (m.insert key value).entries := by
  have hmem : ∀ l : List (κ × ν), p ∈ l → p ∈ insertEntries key value l := by
    intro l
    induction l with
    | nil => exact fun h => nomatch h
    | cons q l ih =>
      intro hp
      rw [insertEntries]
      split
      · exact List.mem_cons_of_mem _ hp
      split
      · next heq =>
        rcases List.mem_cons.1 hp with rfl | hp
        · exact absurd heq.symm hne
        · exact List.mem_cons_of_mem _ hp
      · rcases List.mem_cons.1 hp with rfl | hp
        · exact List.mem_cons_self
        · exact List.mem_cons_of_mem _ (ih hp)
  exact hmem _ hp

theorem get?_insert_of_ne (m : OrdMap κ ν) {key key' : κ} (value : ν) (hne : key' ≠ key) :
    (m.insert key value).get? key' = m.get? key' := by
  apply Option.ext
  intro v
  rw [get?_eq_some_iff, get?_eq_some_iff]
  constructor
  · intro hmem
    rcases mem_insert hmem with heq | hmem
    · exact absurd (congrArg Prod.fst heq) hne
    · exact hmem
  · intro hmem
    exact mem_insert_of_ne hmem hne

theorem get?_erase_self (m : OrdMap κ ν) (key : κ) : (m.erase key).get? key = none := by
  rw [Option.eq_none_iff_forall_ne_some]
  intro v hv
  exact (mem_erase.1 (get?_eq_some_iff.1 hv)).2 rfl

theorem get?_erase_of_ne (m : OrdMap κ ν) {key key' : κ} (hne : key' ≠ key) :
    (m.erase key).get? key' = m.get? key' := by
  apply Option.ext
  intro v
  rw [get?_eq_some_iff, get?_eq_some_iff, mem_erase]
  exact and_iff_left hne

theorem insertEntries_last {l : List (κ × ν)} (h : ∀ p ∈ l, p.1 < key) (value : ν) :
    insertEntries key value l = l ++ [(key, value)] := by
  induction l with
  | nil => rfl
  | cons q l ih =>
    have hq : q.1 < key := h q (by simp)
    rw [insertEntries, if_neg (not_lt_of_gt hq), if_neg (ne_of_gt hq), ih fun p hp => h p (by simp [hp])]
    rfl

theorem mem_ofList {l : List (κ × ν)} {p : κ × ν} (h : p ∈ (ofList l).entries) : p ∈ l := by
  have hfold : ∀ (l : List (κ × ν)) (m : OrdMap κ ν),
      p ∈ (l.foldl (fun m e => m.insert e.1 e.2) m).entries → p ∈ l ∨ p ∈ m.entries := by
    intro l
    induction l with
    | nil => exact fun m h => .inr h
    | cons e l ih =>
      intro m h
      rcases ih _ h with h | h
      · exact .inl (List.mem_cons_of_mem _ h)
      · rcases mem_insert h with rfl | h
        · exact .inl List.mem_cons_self
        · exact .inr h
  exact (hfold l ∅ h).resolve_right (by rintro ⟨⟩)

/-- A map is the map of its entries. -/
theorem ofList_entries (m : OrdMap κ ν) : ofList m.entries = m := by
  have hfold : ∀ (l : List (κ × ν)) (acc : OrdMap κ ν),
      (acc.entries ++ l).Pairwise (fun p q => p.1 < q.1) →
      (l.foldl (fun m e => m.insert e.1 e.2) acc).entries = acc.entries ++ l := by
    intro l
    induction l with
    | nil => exact fun acc _ => (List.append_nil _).symm
    | cons e l ih =>
      intro acc hsorted
      have hlast : (acc.insert e.1 e.2).entries = acc.entries ++ [e] := by
        apply insertEntries_last
        intro p hp
        exact (List.pairwise_append.1 hsorted).2.2 p hp e List.mem_cons_self
      rw [List.foldl_cons, ih _ (by simpa [hlast] using hsorted), hlast]
      simp
  ext1
  exact (hfold m.entries ∅ m.sorted).trans (List.nil_append _)

/-! ## Changed values -/

section

variable {μ : Type*}

/-- The same keys with other values. -/
def map (f : ν → μ) (m : OrdMap κ ν) : OrdMap κ μ where
  entries := m.entries.map fun p => (p.1, f p.2)
  sorted := List.pairwise_map.2 m.sorted

theorem get?_map (f : ν → μ) (m : OrdMap κ ν) (key : κ) :
    (m.map f).get? key = (m.get? key).map f := by
  have hlookup : ∀ l : List (κ × ν),
      (l.map fun p => (p.1, f p.2)).lookup key = (l.lookup key).map f := by
    intro l
    induction l with
    | nil => rfl
    | cons q l ih =>
      rw [List.map_cons, List.lookup_cons, List.lookup_cons]
      split
      · rfl
      · exact ih
  exact hlookup m.entries

theorem contains_map (f : ν → μ) (m : OrdMap κ ν) (key : κ) :
    (m.map f).contains key = m.contains key := by
  rw [contains, contains, get?_map, Option.isSome_map]

theorem map_insert (f : ν → μ) (m : OrdMap κ ν) (key : κ) (value : ν) :
    (m.insert key value).map f = (m.map f).insert key (f value) := by
  have hinsert : ∀ l : List (κ × ν), (insertEntries key value l).map (fun p => (p.1, f p.2)) =
      insertEntries key (f value) (l.map fun p => (p.1, f p.2)) := by
    intro l
    induction l with
    | nil => rfl
    | cons q l ih =>
      rw [insertEntries, List.map_cons, insertEntries]
      split
      · rfl
      split
      · rfl
      · rw [List.map_cons, ih]
  exact OrdMap.ext (hinsert m.entries)

theorem map_filter (f : ν → μ) (m : OrdMap κ ν) {p : κ → ν → Bool} {q : κ → μ → Bool}
    (h : ∀ k v, q k (f v) = p k v) : (m.filter p).map f = (m.map f).filter q := by
  have hentries : ∀ l : List (κ × ν), (l.filter fun e => p e.1 e.2).map (fun e => (e.1, f e.2)) =
      (l.map fun e => (e.1, f e.2)).filter fun e => q e.1 e.2 := by
    intro l
    rw [List.filter_map]
    congr 1
    apply List.filter_congr
    intro e _
    exact (h e.1 e.2).symm
  exact OrdMap.ext (hentries m.entries)

theorem map_erase (f : ν → μ) (m : OrdMap κ ν) (key : κ) :
    (m.erase key).map f = (m.map f).erase key := map_filter f m fun _ _ => rfl

theorem map_congr {f g : ν → μ} {m : OrdMap κ ν} (h : ∀ p ∈ m.entries, f p.2 = g p.2) :
    m.map f = m.map g := by
  apply OrdMap.ext
  apply List.map_congr_left
  intro p hp
  rw [h p hp]

theorem map_ofList (f : ν → μ) (l : List (κ × ν)) :
    (ofList l).map f = ofList (l.map fun p => (p.1, f p.2)) := by
  have hfold : ∀ (l : List (κ × ν)) (m : OrdMap κ ν),
      (l.foldl (fun m e => m.insert e.1 e.2) m).map f =
        (l.map fun p => (p.1, f p.2)).foldl (fun m e => m.insert e.1 e.2) (m.map f) := by
    intro l
    induction l with
    | nil => exact fun _ => rfl
    | cons e l ih =>
      intro m
      rw [List.foldl_cons, ih, map_insert]
      rfl
  exact hfold l ∅

end

end OrdMap

end OhMyPi
