import Mathlib.Data.List.Chain
import OhMyPi.Lib.Forest

/-! Searching the way up from a node for nodes with given properties, one after the other. Taking the
nearest candidate each time misses nothing: what lies above a further one lies above the nearest. -/

namespace OhMyPi.Forest

variable {α : Type*} {parent : α → Option α} {a b c : α} {p : α → Bool}

/-- `b` is a proper ancestor of `a`. -/
def Above (parent : α → Option α) (a b : α) : Prop := ∃ q, parent a = some q ∧ Below parent q b

theorem Above.of_below (h : Below parent a b) (hb : Above parent b c) : Above parent a c := by
  obtain ⟨q, hq, hqc⟩ := hb
  rcases h.cases with rfl | ⟨q', hq', hqb⟩
  · exact ⟨q, hq, hqc⟩
  · exact ⟨q', hq', Relation.ReflTransGen.trans hqb (.head hq hqc)⟩

/-- The first node with the property on the way up, within so many steps. -/
def nearest (parent : α → Option α) (p : α → Bool) : Nat → Option α → Option α
  | _, none => none
  | 0, some _ => none
  | rounds + 1, some a => if p a then some a else nearest parent p rounds (parent a)

theorem nearest_eq_some {rounds : Nat} (h : nearest parent p rounds (some a) = some b) :
    Below parent a b ∧ p b = true ∧ ∀ c, Below parent a c → p c = true → Below parent b c := by
  induction rounds generalizing a with
  | zero => cases h
  | succ rounds ih =>
    rw [nearest] at h
    split at h
    · next hp =>
      cases h
      exact ⟨.refl, hp, fun c hc _ => hc⟩
    · next hp =>
      cases hq : parent a with
      | none =>
        rw [hq, nearest] at h
        cases h
      | some q =>
        rw [hq] at h
        obtain ⟨hqb, hb, hfirst⟩ := ih h
        refine ⟨.head hq hqb, hb, fun c hc hpc => ?_⟩
        rcases hc.cases with rfl | ⟨q', hq', hqc⟩
        · exact absurd hpc hp
        · obtain rfl := Option.some.inj (hq.symm.trans hq')
          exact hfirst c hqc hpc

/-- As many rounds as there are nodes on the way up are enough. -/
theorem nearest_isSome [DecidableEq α] (hacyclic : Acyclic parent) (all : List α)
    (hall : ∀ x, Below parent a x → x ∈ all) {rounds : Nat} (hrounds : all.length ≤ rounds)
    (hc : Below parent a c) (hp : p c = true) :
    (nearest parent p rounds (some a)).isSome = true := by
  induction rounds generalizing a all with
  | zero =>
    have ha := hall a .refl
    rw [List.eq_nil_of_length_eq_zero (Nat.le_zero.1 hrounds)] at ha
    cases ha
  | succ rounds ih =>
    rw [nearest]
    split
    · rfl
    · next hpa =>
      rcases hc.cases with rfl | ⟨q, hq, hqc⟩
      · exact absurd hp hpa
      · rw [hq]
        -- What is above the parent does not have `a` in it.
        refine ih (all.erase a) (fun x hx => ?_) ?_ hqc
        · have hne : x ≠ a := by
            rintro rfl
            exact hacyclic _ _ hq hx
          exact (List.mem_erase_of_ne hne).2 (hall x (.head hq hx))
        · rw [List.length_erase_of_mem (hall a .refl)]
          omega

/-- Nodes with the properties are met one after the other, each time the nearest. -/
def climbs (parent : α → Option α) (rounds : Nat) : α → List (α → Bool) → Bool
  | _, [] => true
  | a, p :: ps =>
    match nearest parent p rounds (parent a) with
    | none => false
    | some b => climbs parent rounds b ps

/-- Some proper ancestors have the properties, each above the one before. -/
def Nests (parent : α → Option α) : α → List (α → Bool) → Prop
  | _, [] => True
  | a, p :: ps => ∃ b, Above parent a b ∧ p b = true ∧ Nests parent b ps

theorem Nests.of_below (h : Below parent a b) {ps : List (α → Bool)} (hb : Nests parent b ps) :
    Nests parent a ps := by
  cases ps with
  | nil => trivial
  | cons p ps =>
    obtain ⟨c, habove, hc⟩ := hb
    exact ⟨c, habove.of_below h, hc⟩

/-- The nearest candidates will do whenever any candidates do. -/
theorem climbs_iff [DecidableEq α] (hacyclic : Acyclic parent) (all : List α) (a : α)
    (hall : ∀ x, Below parent a x → x ∈ all) {rounds : Nat} (hrounds : all.length ≤ rounds)
    (ps : List (α → Bool)) : climbs parent rounds a ps = true ↔ Nests parent a ps := by
  induction ps generalizing a with
  | nil => exact ⟨fun _ => trivial, fun _ => rfl⟩
  | cons p ps ih =>
    rw [climbs]
    constructor
    · intro h
      cases hq : parent a with
      | none =>
        rw [hq, nearest] at h
        cases h
      | some q =>
        rw [hq] at h
        cases hb : nearest parent p rounds (some q) with
        | none =>
          rw [hb] at h
          cases h
        | some b =>
          rw [hb] at h
          obtain ⟨hqb, hpb, -⟩ := nearest_eq_some hb
          have hup : Below parent a b := .head hq hqb
          exact ⟨b, ⟨q, hq, hqb⟩, hpb,
            (ih b fun x hx => hall x (Relation.ReflTransGen.trans hup hx)).1 h⟩
    · rintro ⟨c, ⟨q, hq, hqc⟩, hpc, hrest⟩
      have hsome := nearest_isSome hacyclic all (fun x hx => hall x (.head hq hx)) hrounds hqc hpc
      obtain ⟨b, hb⟩ := Option.isSome_iff_exists.1 hsome
      obtain ⟨hqb, -, hfirst⟩ := nearest_eq_some hb
      have hup : Below parent a b := .head hq hqb
      rw [hq, hb]
      refine (ih b fun x hx => hall x (Relation.ReflTransGen.trans hup hx)).2 ?_
      -- The nearest candidate lies below every other one.
      exact hrest.of_below (hfirst c hqc hpc)

/-- The candidates as a list, outermost first. -/
theorem nests_reverse_iff {ps : List (α → Bool)} : Nests parent a ps.reverse ↔
    ∃ outer, List.Forall₂ (fun b p => p b = true) outer ps ∧
      (outer ++ [a]).IsChain fun b c => Above parent c b := by
  induction ps using List.reverseRecOn generalizing a with
  | nil =>
    refine ⟨fun _ => ⟨[], .nil, .singleton a⟩, fun _ => trivial⟩
  | append_singleton ps p ih =>
    rw [List.reverse_append, List.reverse_singleton, List.singleton_append]
    constructor
    · rintro ⟨b, habove, hp, hrest⟩
      obtain ⟨outer, hall, hchain⟩ := ih.1 hrest
      refine ⟨outer ++ [b], List.rel_append hall (.cons hp .nil), ?_⟩
      rw [List.append_assoc, List.singleton_append, List.isChain_append_cons_cons]
      exact ⟨hchain, habove, .singleton a⟩
    · rintro ⟨outer, hall, hchain⟩
      have hlen := hall.length_eq
      rcases List.eq_nil_or_concat outer with rfl | ⟨outer, b, rfl⟩
      · simp at hlen
      · rw [List.concat_eq_append] at hall hchain
        rw [List.append_assoc, List.singleton_append, List.isChain_append_cons_cons] at hchain
        have hfront := List.forall₂_take outer.length hall
        have hback := List.forall₂_drop outer.length hall
        have hlen' : outer.length = ps.length := by simpa using hlen
        rw [List.take_left, hlen', List.take_left] at hfront
        rw [List.drop_left, hlen', List.drop_left] at hback
        exact ⟨b, hchain.2.1, (List.forall₂_cons.1 hback).1, ih.2 ⟨outer, hfront, hchain.1⟩⟩

end OhMyPi.Forest
