import Mathlib.Data.List.Nodup
import Mathlib.Data.List.Perm.Subperm
import Mathlib.Logic.Function.Basic
import Mathlib.Logic.Relation

/-! Forests given twice, by parent links and by child lists: the way up from a node, and the walk
that lists everything below one with an explicit stack. -/

namespace OhMyPi.Forest

variable {α : Type*} {parent parent' : α → Option α} {kids kids' : α → List α} {a b c r x : α}

/-- `b` is met on the way up from `a`, which may be `a` itself. -/
def Below (parent : α → Option α) (a b : α) : Prop :=
  Relation.ReflTransGen (fun x y => parent x = some y) a b

theorem Below.head (h : parent a = some b) (hbc : Below parent b c) : Below parent a c :=
  Relation.ReflTransGen.head h hbc

theorem Below.cases (h : Below parent a c) : a = c ∨ ∃ b, parent a = some b ∧ Below parent b c :=
  (Relation.ReflTransGen.cases_head h).imp id fun ⟨b, hb, hbc⟩ => ⟨b, hb, hbc⟩

/-- No node is met again on the way up from it. -/
def Acyclic (parent : α → Option α) : Prop :=
  ∀ a b, parent a = some b → ¬ Below parent b a

/-- A node whose way up ends at a node without a parent is on no cycle. -/
theorem not_cycle (hr : parent r = none) (hup : Below parent a r) (h : parent a = some b) :
    ¬ Below parent b a := by
  intro hback
  -- A cycle is inherited by every node on the way up, in the end by `r`.
  have hcycle : ∀ x, Below parent a x → ∃ y, parent x = some y ∧ Below parent y x := by
    intro x hx
    induction hx with
    | refl => exact ⟨b, h, hback⟩
    | tail _ hxy ih =>
      obtain ⟨y, hy, hyx⟩ := ih
      obtain rfl := Option.some.inj (hy.symm.trans hxy)
      rcases hyx.cases with rfl | ⟨z, hz, hzx⟩
      · exact ⟨_, hxy, .refl⟩
      · exact ⟨z, hz, Relation.ReflTransGen.tail hzx hxy⟩
  obtain ⟨y, hy, -⟩ := hcycle r hup
  rw [hr] at hy
  cases hy

/-- Ways up that never leave the part where two parent maps agree are the same. -/
theorem Below.congr (h : Below parent a b) (hagree : ∀ x, Below parent a x → x ≠ b →
    parent' x = parent x) : Below parent' a b := by
  induction h using Relation.ReflTransGen.head_induction_on with
  | refl => exact .refl
  | @head x y hxy hyb ih =>
    by_cases hx : x = b
    · rw [hx]
      exact .refl
    · refine .head ((hagree x .refl hx).trans hxy) (ih fun z hz hzb => hagree z (.head hxy hz) hzb)

/-- The stack walk: the last handle is popped and its children are pushed. It lists what it pops. -/
def walk (kids : α → List α) : Nat → List α → List α
  | 0, _ => []
  | rounds + 1, pending =>
    match pending.getLast? with
    | none => []
    | some current => current :: walk kids rounds (pending.dropLast ++ kids current)

theorem walk_congr (n : Nat) (pending : List α) (h : ∀ x ∈ walk kids n pending, kids' x = kids x) :
    walk kids' n pending = walk kids n pending := by
  induction n generalizing pending with
  | zero => rfl
  | succ n ih =>
    rw [walk, walk]
    rw [walk] at h
    cases hlast : pending.getLast? with
    | none => rfl
    | some current =>
      simp only [hlast, List.mem_cons, forall_eq_or_imp] at h
      simp only [h.1, ih _ h.2]

/-- Parent links and child lists that say the same, without cycles. -/
structure Consistent (parent : α → Option α) (kids : α → List α) : Prop where
  mem_kids : ∀ {k p}, k ∈ kids p ↔ parent k = some p
  nodup : ∀ p, (kids p).Nodup
  acyclic : Acyclic parent

namespace Consistent

/-- What the walk from `r` keeps: `done` was popped and `pending` is on the stack. -/
private structure Walking (parent : α → Option α) (kids : α → List α) (r : α)
    (done pending : List α) : Prop where
  nodup : (done ++ pending).Nodup
  below : ∀ x ∈ done ++ pending, Below parent x r
  parent_done : ∀ x ∈ done ++ pending, x = r ∨ ∃ p ∈ done, parent x = some p
  kids_met : ∀ d ∈ done, ∀ k ∈ kids d, k ∈ done ++ pending
  start : r ∈ done ++ pending

private theorem Walking.pop (hf : Consistent parent kids)
    (h : Walking parent kids r done (pending ++ [c])) :
    Walking parent kids r (done ++ [c]) (pending ++ kids c) where
  nodup := by
    have hnodup : (done ++ [c] ++ pending).Nodup :=
      (List.Perm.nodup_iff (by simpa using List.perm_append_singleton c pending |>.append_left done)).1
        (by simpa using h.nodup)
    rw [← List.append_assoc]
    refine List.nodup_append.2 ⟨hnodup, hf.nodup c, ?_⟩
    -- A child met before `c` was popped would have `c` among the popped handles already.
    rintro k hk _ hkids rfl
    have hmet : k ∈ done ++ (pending ++ [c]) := by
      simp only [List.mem_append, List.mem_singleton] at hk ⊢
      tauto
    have hparent := hf.mem_kids.1 hkids
    rcases h.parent_done k hmet with rfl | ⟨p, hp, hkp⟩
    · exact hf.acyclic _ _ hparent (h.below c (by simp))
    · obtain rfl := Option.some.inj (hkp.symm.trans hparent)
      have := h.nodup
      rw [List.nodup_append] at this
      exact this.2.2 p hp p (by simp) rfl
  below := by
    intro x hx
    simp only [List.mem_append, List.mem_singleton] at hx
    rcases hx with (hx | rfl) | hx | hx
    · exact h.below x (by simp [hx])
    · exact h.below x (by simp)
    · exact h.below x (by simp [hx])
    · exact .head (hf.mem_kids.1 hx) (h.below c (by simp))
  parent_done := by
    intro x hx
    simp only [List.mem_append, List.mem_singleton] at hx
    have hold : x ∈ done ++ (pending ++ [c]) → x = r ∨ ∃ p ∈ done ++ [c], parent x = some p := by
      intro hx
      rcases h.parent_done x hx with hr | ⟨p, hp, hxp⟩
      · exact .inl hr
      · exact .inr ⟨p, List.mem_append_left _ hp, hxp⟩
    rcases hx with (hx | rfl) | hx | hx
    · exact hold (by simp [hx])
    · exact hold (by simp)
    · exact hold (by simp [hx])
    · exact .inr ⟨c, by simp, hf.mem_kids.1 hx⟩
  kids_met := by
    intro d hd k hk
    simp only [List.mem_append, List.mem_singleton] at hd ⊢
    rcases hd with hd | rfl
    · have := h.kids_met d hd k hk
      simp only [List.mem_append, List.mem_singleton] at this
      tauto
    · exact .inr (.inr hk)
  start := by
    have := h.start
    simp only [List.mem_append, List.mem_singleton] at this ⊢
    tauto

/-- Once the stack is empty everything below the start has been popped. -/
private theorem Walking.mem_done (hf : Consistent parent kids) (h : Walking parent kids r done [])
    (hx : Below parent x r) : x ∈ done := by
  induction hx using Relation.ReflTransGen.head_induction_on with
  | refl => simpa using h.start
  | head hxy _ ih => simpa using h.kids_met _ ih _ (hf.mem_kids.2 hxy)

private theorem Walking.walk (hf : Consistent parent kids) (all : List α)
    (hall : ∀ x, Below parent x r → x ∈ all) (n : Nat) (hn : all.length ≤ done.length + n)
    (h : Walking parent kids r done pending) :
    (done ++ walk kids n pending).Nodup ∧ ∀ x, x ∈ done ++ walk kids n pending ↔ Below parent x r := by
  have hend : Walking parent kids r done [] → (done ++ []).Nodup ∧
      ∀ x, x ∈ done ++ [] ↔ Below parent x r :=
    fun h => ⟨h.nodup, fun x => ⟨h.below x, fun hx => by simpa using h.mem_done hf hx⟩⟩
  induction n generalizing done pending with
  | zero =>
    have hle : (done ++ pending).length ≤ all.length :=
      (List.subperm_of_subset h.nodup fun x hx => hall x (h.below x hx)).length_le
    obtain rfl : pending = [] := by
      rw [List.length_append] at hle
      exact List.eq_nil_of_length_eq_zero (by omega)
    exact hend h
  | succ n ih =>
    rw [Forest.walk]
    cases hlast : pending.getLast? with
    | none =>
      obtain rfl := List.getLast?_eq_none_iff.1 hlast
      exact hend h
    | some current =>
      obtain ⟨pre, rfl⟩ := List.getLast?_eq_some_iff.1 hlast
      have hpop := h.pop hf
      have := ih (by rw [List.length_append, List.length_singleton]; omega) hpop fun h =>
        ⟨h.nodup, fun x => ⟨h.below x, fun hx => by simpa using h.mem_done hf hx⟩⟩
      simpa [List.append_assoc] using this

/-- The walk from a node pops everything below it exactly once. -/
theorem walk (hf : Consistent parent kids) (all : List α) (hall : ∀ x, Below parent x r → x ∈ all)
    {n : Nat} (hn : all.length ≤ n) :
    (walk kids n [r]).Nodup ∧ ∀ x, x ∈ Forest.walk kids n [r] ↔ Below parent x r := by
  have hstart : Walking parent kids r [] [r] :=
    { nodup := by simp
      below := fun x hx => by
        obtain rfl : x = r := by simpa using hx
        exact .refl
      parent_done := fun x hx => .inl (by simpa using hx)
      kids_met := by simp
      start := by simp }
  simpa using hstart.walk hf all hall n (by simpa using hn)

end Consistent

/-! ## The way up -/

section

variable [DecidableEq α]

/-- Whether `b` is met within so many steps on the way up. -/
def climb (parent : α → Option α) (b : α) : Nat → α → Bool
  | 0, _ => false
  | rounds + 1, a =>
    if b = a then true
    else
      match parent a with
      | none => false
      | some p => climb parent b rounds p

theorem below_of_climb {n : Nat} (h : climb parent b n a = true) : Below parent a b := by
  induction n generalizing a with
  | zero => cases h
  | succ n ih =>
    rw [climb] at h
    split at h
    · next heq =>
      rw [heq]
      exact .refl
    · split at h
      · cases h
      · next hp => exact .head hp (ih h)

/-- The climb meets no node twice, so that as many rounds as there are nodes are enough. -/
theorem climb_eq_true (hacyclic : Acyclic parent) (all : List α)
    (hall : ∀ x, Below parent a x → x ∈ all) {n : Nat} (hn : all.length ≤ n)
    (h : Below parent a b) : climb parent b n a = true := by
  induction n generalizing a all with
  | zero =>
    have ha := hall a .refl
    rw [List.eq_nil_of_length_eq_zero (Nat.le_zero.1 hn)] at ha
    cases ha
  | succ n ih =>
    rw [climb]
    rcases h.cases with rfl | ⟨p, hp, hpb⟩
    · rw [if_pos rfl]
    split
    · rfl
    rw [hp]
    -- What is above the parent does not have `a` in it.
    refine ih (all.erase a) (fun x hx => ?_) ?_ hpb
    · have hne : x ≠ a := by
        rintro rfl
        exact hacyclic _ _ hp hx
      exact (List.mem_erase_of_ne hne).2 (hall x (.head hp hx))
    · rw [List.length_erase_of_mem (hall a .refl)]
      omega

end

/-! ## One tree -/

/-- The live nodes are one tree: links and child lists agree, only live nodes have links, and every
live node's way up ends at the root. -/
structure Rooted (root : α) (live : α → Prop) (parent : α → Option α) (kids : α → List α) :
    Prop where
  mem_kids : ∀ {k p}, k ∈ kids p ↔ parent k = some p
  nodup : ∀ p, (kids p).Nodup
  linked : ∀ {a b}, parent a = some b → live a
  below : ∀ {a}, live a → Below parent a root
  root_live : live root
  root_parent : parent root = none

namespace Rooted

variable {root : α} {live : α → Prop} {p : α}

theorem congr_live {live' : α → Prop} (h : Rooted root live parent kids)
    (hlive : ∀ a, live a ↔ live' a) : Rooted root live' parent kids := by
  obtain rfl : live = live' := funext fun a => propext (hlive a)
  exact h

theorem live_iff (h : Rooted root live parent kids) : live a ↔ Below parent a root := by
  refine ⟨h.below, fun hup => ?_⟩
  rcases hup.cases with rfl | ⟨b, hb, -⟩
  · exact h.root_live
  · exact h.linked hb

theorem live_of_below (h : Rooted root live parent kids) (hb : live b) (hab : Below parent a b) :
    live a := h.live_iff.2 (Relation.ReflTransGen.trans hab (h.below hb))

theorem ne_root (h : Rooted root live parent kids) (hab : parent a = some b) : a ≠ root := by
  rintro rfl
  rw [h.root_parent] at hab
  cases hab

theorem parent_live (h : Rooted root live parent kids) (hab : parent a = some b) : live b := by
  rcases (h.below (h.linked hab)).cases with heq | ⟨c, hc, hup⟩
  · exact absurd heq (h.ne_root hab)
  · obtain rfl := Option.some.inj (hc.symm.trans hab)
    exact h.live_iff.2 hup

theorem exists_parent (h : Rooted root live parent kids) (ha : live a) (hne : a ≠ root) :
    ∃ b, parent a = some b := by
  rcases (h.below ha).cases with heq | ⟨b, hb, -⟩
  · exact absurd heq hne
  · exact ⟨b, hb⟩

theorem live_of_mem_kids (h : Rooted root live parent kids) (hk : a ∈ kids b) : live a :=
  h.linked (h.mem_kids.1 hk)

theorem kids_eq_nil (h : Rooted root live parent kids) (ha : ¬ live a) : kids a = [] :=
  List.eq_nil_iff_forall_not_mem.2 fun _ hk => ha (h.parent_live (h.mem_kids.1 hk))

theorem live_above (h : Rooted root live parent kids) (ha : live a) (hab : Below parent a b) :
    live b := by
  induction hab with
  | refl => exact ha
  | tail _ hxy _ => exact h.parent_live hxy

theorem acyclic (h : Rooted root live parent kids) : Acyclic parent :=
  fun _ _ hab => not_cycle h.root_parent (h.below (h.linked hab)) hab

theorem consistent (h : Rooted root live parent kids) : Consistent parent kids :=
  ⟨h.mem_kids, h.nodup, h.acyclic⟩

section

variable [DecidableEq α]

/-- A new leaf. -/
theorem attach (h : Rooted root live parent kids) (hc : ¬ live c) (hp : live p) {l : List α}
    (hl : l.Perm (c :: kids p)) : Rooted root (fun a => a = c ∨ live a)
      (Function.update parent c (some p)) (Function.update kids p l) := by
  have hpc : p ≠ c := by
    rintro rfl
    exact hc hp
  have hparent : ∀ a, parent a ≠ some c := fun a ha => hc (h.parent_live ha)
  have hup : ∀ {a}, live a → Below (Function.update parent c (some p)) a root := by
    intro a ha
    apply (h.below ha).congr
    intro x hx _
    rw [Function.update_of_ne]
    rintro rfl
    exact hc (h.live_above ha hx)
  refine ⟨?_, ?_, ?_, ?_, .inr h.root_live, ?_⟩
  · intro k q
    by_cases hq : q = p
    · subst hq
      rw [Function.update_self, hl.mem_iff, List.mem_cons, h.mem_kids]
      by_cases hk : k = c
      · simp [hk]
      · simp [hk]
    · rw [Function.update_of_ne hq, h.mem_kids]
      by_cases hk : k = c
      · subst hk
        rw [Function.update_self, Option.some.injEq]
        exact ⟨fun hq' => absurd (h.linked hq') hc, fun hpq => absurd hpq.symm hq⟩
      · rw [Function.update_of_ne hk]
  · intro q
    by_cases hq : q = p
    · subst hq
      rw [Function.update_self, hl.nodup_iff, List.nodup_cons]
      exact ⟨fun hk => hc (h.live_of_mem_kids hk), h.nodup q⟩
    · rw [Function.update_of_ne hq]
      exact h.nodup q
  · intro a b hab
    by_cases ha : a = c
    · exact .inl ha
    · rw [Function.update_of_ne ha] at hab
      exact .inr (h.linked hab)
  · rintro a (rfl | ha)
    · exact .head (Function.update_self ..) (hup hp)
    · exact hup ha
  · rw [Function.update_of_ne]
    · exact h.root_parent
    · rintro rfl
      exact hc h.root_live

/-- A node taken off its parent, with everything below it still hanging from it. -/
theorem detach (h : Rooted root live parent kids) (c : α) :
    Consistent (Function.update parent c none) (fun q => (kids q).filter (· ≠ c)) where
  mem_kids {k q} := by
    rw [List.mem_filter, h.mem_kids]
    by_cases hk : k = c
    · simp [hk]
    · simp [hk]
  nodup q := (h.nodup q).filter _
  acyclic := by
    intro a b hab hba
    have hold : ∀ {x y}, Function.update parent c none x = some y → parent x = some y := by
      intro x y hxy
      by_cases hx : x = c
      · rw [hx, Function.update_self] at hxy
        cases hxy
      · rwa [Function.update_of_ne hx] at hxy
    exact h.acyclic a b (hold hab) (Relation.ReflTransGen.mono (fun _ _ hxy => hold hxy) _ _ hba)

theorem below_detach : Below (Function.update parent c none) a c ↔ Below parent a c := by
  constructor
  · intro hac
    apply hac.congr
    intro x _ hx
    rw [Function.update_of_ne hx]
  · intro hac
    apply hac.congr
    intro x _ hx
    rw [Function.update_of_ne hx]

/-- A subtree moved below a node outside it. -/
theorem move (h : Rooted root live parent kids) (hroot : c ≠ root) (hc : live c) (hp : live p)
    (hout : ¬ Below parent p c) {l : List α} (hl : l.Perm (c :: (kids p).filter (· ≠ c))) :
    Rooted root live (Function.update parent c (some p))
      (Function.update (fun q => (kids q).filter (· ≠ c)) p l) := by
  have houtside : ∀ {a}, live a → ¬ Below parent a c →
      Below (Function.update parent c (some p)) a root := by
    intro a ha hac
    apply (h.below ha).congr
    intro x hx _
    rw [Function.update_of_ne]
    rintro rfl
    exact hac hx
  refine ⟨?_, ?_, ?_, ?_, h.root_live, ?_⟩
  · intro k q
    have hfilter : k ∈ (kids q).filter (· ≠ c) ↔ parent k = some q ∧ k ≠ c := by
      rw [List.mem_filter, h.mem_kids]
      simp
    by_cases hq : q = p
    · subst hq
      rw [Function.update_self, hl.mem_iff, List.mem_cons, hfilter]
      by_cases hk : k = c
      · simp [hk]
      · simp [hk]
    · rw [Function.update_of_ne hq, hfilter]
      by_cases hk : k = c
      · simp [hk, Ne.symm hq]
      · simp [hk]
  · intro q
    by_cases hq : q = p
    · subst hq
      rw [Function.update_self, hl.nodup_iff, List.nodup_cons]
      exact ⟨by simp, (h.nodup q).filter _⟩
    · rw [Function.update_of_ne hq]
      exact (h.nodup q).filter _
  · intro a b hab
    by_cases ha : a = c
    · rw [ha]
      exact hc
    · rw [Function.update_of_ne ha] at hab
      exact h.linked hab
  · intro a ha
    by_cases hac : Below parent a c
    · -- Below the moved node nothing changed, and from it the way leads on through `p`.
      have hac' : Below (Function.update parent c (some p)) a c := by
        apply hac.congr
        intro x _ hx
        rw [Function.update_of_ne hx]
      exact Relation.ReflTransGen.trans hac' (.head (Function.update_self ..) (houtside hp hout))
    · exact houtside ha hac
  · rw [Function.update_of_ne (Ne.symm hroot)]
    exact h.root_parent

/-- A subtree taken out, given as the list of its nodes. -/
theorem remove (h : Rooted root live parent kids) (hroot : c ≠ root) {gone : List α}
    (hgone : ∀ x, x ∈ gone ↔ Below parent x c) : Rooted root (fun a => live a ∧ a ∉ gone)
      (fun a => if a ∈ gone then none else parent a)
      (fun q => if q ∈ gone then [] else (kids q).filter (· ≠ c)) := by
  have hrootOut : root ∉ gone := by
    rw [hgone]
    intro hback
    rcases hback.cases with heq | ⟨b, hb, -⟩
    · exact hroot heq.symm
    · rw [h.root_parent] at hb
      cases hb
  refine ⟨?_, ?_, ?_, ?_, ⟨h.root_live, hrootOut⟩, ?_⟩
  · intro k q
    by_cases hk : k ∈ gone
    · rw [if_pos hk]
      refine ⟨fun hmem => ?_, fun hn => nomatch hn⟩
      split at hmem
      · cases hmem
      · next hq =>
        obtain ⟨hmem, hne⟩ := List.mem_filter.1 hmem
        rcases ((hgone k).1 hk).cases with heq | ⟨b, hb, hbc⟩
        · simp [heq] at hne
        · obtain rfl := Option.some.inj (hb.symm.trans (h.mem_kids.1 hmem))
          exact absurd ((hgone b).2 hbc) hq
    · rw [if_neg hk]
      have hkc : k ≠ c := by
        rintro rfl
        exact hk ((hgone k).2 .refl)
      split
      · next hq =>
        refine ⟨fun hn => (nomatch hn), fun hkq => ?_⟩
        exact absurd ((hgone k).2 (.head hkq ((hgone q).1 hq))) hk
      · rw [List.mem_filter, h.mem_kids]
        simp [hkc]
  · intro q
    split
    · exact .nil
    · exact (h.nodup q).filter _
  · intro a b hab
    split at hab
    · cases hab
    · next ha => exact ⟨h.linked hab, ha⟩
  · rintro a ⟨ha, hout⟩
    apply (h.below ha).congr
    intro x hx _
    rw [if_neg]
    intro hxgone
    exact hout ((hgone a).2 (Relation.ReflTransGen.trans hx ((hgone x).1 hxgone)))
  · rw [if_neg hrootOut]
    exact h.root_parent

end

end Rooted

/-! ## Trees from child lists -/

/-- A walk that empties its stack pops what it began with and what it pushed. -/
theorem walk_perm {n : Nat} {pending : List α} (h : (walk kids n pending).length < n) :
    (walk kids n pending).Perm (pending ++ (walk kids n pending).flatMap kids) := by
  induction n generalizing pending with
  | zero => exact absurd h (Nat.not_lt_zero _)
  | succ n ih =>
    rw [walk] at h ⊢
    cases hlast : pending.getLast? with
    | none =>
      obtain rfl := List.getLast?_eq_none_iff.1 hlast
      exact .refl _
    | some current =>
      obtain ⟨pre, rfl⟩ := List.getLast?_eq_some_iff.1 hlast
      simp only [hlast, List.length_cons, List.dropLast_concat] at h ⊢
      have hrest := @ih (pre ++ kids current) (by omega)
      rw [List.flatMap_cons]
      refine (hrest.cons current).trans ?_
      rw [List.append_assoc, List.append_assoc]
      exact List.perm_middle.symm

theorem below_of_mem_walk (hkids : ∀ {p k}, k ∈ kids p → parent k = some p) {n : Nat}
    {pending : List α} (hx : x ∈ walk kids n pending) : ∃ y ∈ pending, Below parent x y := by
  induction n generalizing pending with
  | zero => cases hx
  | succ n ih =>
    rw [walk] at hx
    cases hlast : pending.getLast? with
    | none =>
      rw [hlast] at hx
      cases hx
    | some current =>
      obtain ⟨pre, rfl⟩ := List.getLast?_eq_some_iff.1 hlast
      simp only [hlast, List.dropLast_concat, List.mem_cons] at hx
      rcases hx with rfl | hx
      · exact ⟨x, by simp, .refl⟩
      · obtain ⟨y, hy, hxy⟩ := ih hx
        rcases List.mem_append.1 hy with hy | hy
        · exact ⟨y, by simp [hy], hxy⟩
        · exact ⟨current, by simp, Relation.ReflTransGen.tail hxy (hkids hy)⟩

/-- Child lists whose members name their lister as parent make one tree of `all` exactly when the
walk from the root meets each of them once. -/
theorem rooted_iff_walk {root : α} {all : List α} (hnodup : all.Nodup)
    (hkids : ∀ {p k}, k ∈ kids p → parent k = some p)
    (hlinked : ∀ {a b}, parent a = some b → a ∈ all ∧ b ∈ all) (hroot : parent root = none)
    (hmem : root ∈ all) :
    Rooted root (· ∈ all) parent kids ↔ (walk kids (all.length + 1) [root]).Perm all := by
  constructor
  · intro h
    obtain ⟨hwalk, hiff⟩ := h.consistent.walk all (r := root) (fun x hx => h.live_iff.2 hx)
      (Nat.le_succ _)
    exact (List.perm_ext_iff_of_nodup hwalk hnodup).2 fun x => (hiff x).trans h.live_iff.symm
  · intro h
    have hlength : (walk kids (all.length + 1) [root]).length < all.length + 1 := by
      rw [h.length_eq]
      exact Nat.lt_succ_self _
    have hperm := walk_perm hlength
    have hpushed : ([root] ++ (walk kids (all.length + 1) [root]).flatMap kids).Nodup :=
      hperm.nodup_iff.1 (h.nodup_iff.2 hnodup)
    refine ⟨fun {k p} => ⟨hkids, fun hkp => ?_⟩, fun p => ?_, fun hab => (hlinked hab).1, ?_, hmem,
      hroot⟩
    · have hk := (hperm.mem_iff.1 (h.mem_iff.2 (hlinked hkp).1))
      rcases List.mem_append.1 hk with hk | hk
      · rw [List.mem_singleton.1 hk, hroot] at hkp
        cases hkp
      · obtain ⟨q, -, hkq⟩ := List.mem_flatMap.1 hk
        obtain rfl := Option.some.inj ((hkids hkq).symm.trans hkp)
        exact hkq
    · by_cases hp : kids p = []
      · rw [hp]
        exact .nil
      · obtain ⟨k, hk⟩ := List.exists_mem_of_ne_nil _ hp
        have hpall : p ∈ walk kids (all.length + 1) [root] := h.mem_iff.2 (hlinked (hkids hk)).2
        exact (List.nodup_flatMap.1 (List.nodup_append.1 hpushed).2.1).1 p hpall
    · intro a ha
      obtain ⟨y, hy, hay⟩ := below_of_mem_walk hkids (h.mem_iff.2 ha)
      rwa [List.mem_singleton.1 hy] at hay

end OhMyPi.Forest
