import OhMyPi.Lib.Forest
import OhMyPi.Dom.Replica

/-! The tree invariant. Validation works on an overlay that it never folds back; what it checks is
nevertheless what each operation would meet if the operations before it had been applied, so that
both are followed on the tree's structure alone. -/

namespace OhMyPi

open Forest

namespace Skeleton

/-- The child lists without one handle. -/
def detached (s : Skeleton) (handle q : Handle) : List Handle :=
  (s.children q).filter (· ≠ handle)

/-- The handles that `remove` meets. -/
def subtree (s : Skeleton) (handle : Handle) : List Handle :=
  walk (s.detached handle) (s.highWater + 1) [handle]

/-- The structure after one operation. -/
def apply (s : Skeleton) : Op → Skeleton
  | .ins parent after node =>
    let handle := s.highWater + 1
    { tag := Function.update s.tag handle (some node.tag)
      children := Function.update s.children parent (insertAfter (s.children parent) after handle)
      parent := Function.update s.parent handle (some parent)
      highWater := handle }
  | .rm handle =>
    { tag h := if h ∈ s.subtree handle then none else s.tag h
      children h := if h ∈ s.subtree handle then [] else s.detached handle h
      parent h := if h ∈ s.subtree handle then none else s.parent h
      highWater := s.highWater }
  | .set .. => s
  | .mv handle parent after =>
    { s with
      children := Function.update (s.detached handle) parent
        (insertAfter (s.detached handle parent) after handle)
      parent := Function.update s.parent handle (some parent) }

/-- The handle that an operation mints. -/
def mints (s : Skeleton) : Op → Option Handle
  | .ins .. => some (s.highWater + 1)
  | _ => none

/-- A handle the topology pins down. -/
def isFixedRoot (s : Skeleton) (handle : Handle) : Bool :=
  ({ dom := s : Validation }).isFixedRoot handle

/-- What an operation must find. -/
def Admits (s : Skeleton) : Op → Prop
  | .ins parent after node => s.tag parent ≠ none ∧ (∀ a ∈ after, a ∈ s.children parent) ∧
    Validation.admits parent node.tag
  | .rm handle => s.tag handle ≠ none ∧ s.isFixedRoot handle = false
  | .set handle _ _ => s.tag handle ≠ none
  | .mv handle parent after => s.tag handle ≠ none ∧ s.tag parent ≠ none ∧
    s.isFixedRoot handle = false ∧ Validation.admits parent ((s.tag handle).getD (.custom "")) ∧
    ¬ Below s.parent parent handle ∧ (∀ a ∈ after, a ∈ s.children parent) ∧ after ≠ some handle

/-- The tree invariant: one tree below the root, every handle within the mark, and the four
canonical nodes in their places. -/
structure Tree (s : Skeleton) : Prop extends
    Rooted Dom.root (fun h => s.tag h ≠ none) s.parent s.children where
  pos : ∀ {h : Nat}, s.tag h ≠ none → 0 < h
  bounded : ∀ {h : Nat}, s.tag h ≠ none → h ≤ s.highWater
  tag_root : s.tag Dom.root = some (.known .session)
  tag_meta : s.tag Dom.meta = some (.known .meta)
  tag_body : s.tag Dom.body = some (.known .body)
  tag_queues : s.tag Dom.queues = some (.known .queues)
  top : s.children Dom.root = [Dom.meta, Dom.body, Dom.queues]

namespace Tree

variable {s : Skeleton}

/-- Every handle on the way up from or below a live node is among those that were minted. -/
theorem mem_range (h : s.Tree) {k : Handle} (hk : s.tag k ≠ none) :
    k ∈ List.range (s.highWater + 1) :=
  List.mem_range.2 (Nat.lt_succ_of_le (h.bounded hk))

theorem tag_fresh (h : s.Tree) : s.tag (s.highWater + 1) = none := by
  by_contra hlive
  have := h.bounded hlive
  omega

/-- What `rm` takes out is what is below its handle. -/
theorem subtree_spec (h : s.Tree) {handle : Handle} (hlive : s.tag handle ≠ none) :
    (s.subtree handle).Nodup ∧ ∀ x, x ∈ s.subtree handle ↔ Below s.parent x handle := by
  have hall : ∀ x, Below (Function.update s.parent handle none) x handle →
      x ∈ List.range (s.highWater + 1) :=
    fun x hx => h.mem_range (h.live_of_below hlive (Rooted.below_detach.1 hx))
  obtain ⟨hnodup, hmem⟩ := (h.toRooted.detach handle).walk _ hall (List.length_range).le
  exact ⟨hnodup, fun x => (hmem x).trans Rooted.below_detach⟩

theorem detached_of_ne (h : s.Tree) {handle parent q : Handle}
    (hparent : s.parent handle = some parent) (hq : q ≠ parent) :
    s.detached handle q = s.children q := by
  apply List.filter_eq_self.2
  intro k hk
  have hne : k ≠ handle := by
    rintro rfl
    exact hq (Option.some.inj ((h.mem_kids.1 hk).symm.trans hparent))
  simpa using hne

/-- Only the parent of a node lists it. -/
theorem update_detached (h : s.Tree) {handle parent : Handle}
    (hparent : s.parent handle = some parent) :
    Function.update s.children parent (s.detached handle parent) = s.detached handle := by
  funext q
  by_cases hq : q = parent
  · rw [hq, Function.update_self]
  · rw [Function.update_of_ne hq, h.detached_of_ne hparent hq]

theorem insertAfter_perm (kids : List Handle) (after : Option Handle) (handle : Handle) :
    (insertAfter kids after handle).Perm (handle :: kids) := by
  apply List.perm_insertIdx
  cases after with
  | none => exact Nat.zero_le _
  | some anchor =>
    rw [Option.bind_some]
    cases hindex : kids.idxOf? anchor with
    | none => exact Nat.zero_le _
    | some index => exact (List.idxOf?_eq_some_iff.1 hindex).1

/-! ### Fixed roots -/

theorem parent_top (h : s.Tree) {k : Handle} :
    s.parent k = some Dom.root ↔ k = Dom.meta ∨ k = Dom.body ∨ k = Dom.queues := by
  rw [← h.mem_kids, h.top]
  simp

end Tree

theorem isFixedRoot_eq (s : Skeleton) (h : Handle) : s.isFixedRoot h =
    (decide (h ≤ Dom.queues) ||
      match s.parent h, s.tag h with
      | some parent, some (.known .todo) | some parent, some (.known .jobs)
      | some parent, some (.known .directors) | some parent, some (.known .con) =>
        parent == Dom.meta
      | some parent, some (.known .steering) | some parent, some (.known .prompts) =>
        parent == Dom.queues
      | _, _ => false) := by
  have hparent : ({ dom := s : Validation }).parent h = s.parent h := by simp [Validation.parent]
  have htag : ({ dom := s : Validation }).tag h = s.tag h := by simp [Validation.tag]
  rw [isFixedRoot, Validation.isFixedRoot, hparent, htag] <;> rfl

theorem isFixedRoot_congr {s s' : Skeleton} {h : Handle} (htag : s'.tag h = s.tag h)
    (hparent : s'.parent h = s.parent h) : s'.isFixedRoot h = s.isFixedRoot h := by
  rw [isFixedRoot_eq, isFixedRoot_eq, htag, hparent]

/-- A component root stands right below `meta` or `queues`. -/
theorem parent_of_isFixedRoot {s : Skeleton} {h : Handle} (hfixed : s.isFixedRoot h = true) :
    h ≤ Dom.queues ∨ s.parent h = some Dom.meta ∨ s.parent h = some Dom.queues := by
  rw [isFixedRoot_eq, Bool.or_eq_true, decide_eq_true_eq] at hfixed
  refine hfixed.imp_right fun hcomponent => ?_
  split at hcomponent
  all_goals simp_all

namespace Tree

variable {s : Skeleton}

theorem isFixedRoot_of_le {k : Handle} (hle : k ≤ Dom.queues) : s.isFixedRoot k = true := by
  rw [isFixedRoot_eq, decide_eq_true hle, Bool.true_or]

theorem isFixedRoot_parent (h : s.Tree) {k p : Handle} (hfixed : s.isFixedRoot k = true)
    (hp : s.parent k = some p) : s.isFixedRoot p = true := by
  apply isFixedRoot_of_le
  rcases parent_of_isFixedRoot hfixed with hle | hmeta | hqueues
  · have hpos : 0 < k := h.pos (h.linked hp)
    have hcases : ∀ k : Nat, 0 < k → k ≤ 4 → k = 1 ∨ k = 2 ∨ k = 3 ∨ k = 4 := by omega
    rcases hcases k hpos hle with rfl | hk
    · exact absurd rfl (h.ne_root hp)
    · rw [h.parent_top.2 hk] at hp
      cases hp
      decide
  · rw [hp] at hmeta
    cases hmeta
    decide
  · rw [hp] at hqueues
    cases hqueues
    decide

theorem isFixedRoot_above (h : s.Tree) {k x : Handle} (hfixed : s.isFixedRoot k = true)
    (hx : Below s.parent k x) : s.isFixedRoot x = true := by
  induction hx with
  | refl => exact hfixed
  | tail _ hxy ih => exact h.isFixedRoot_parent ih hxy

/-- No operation moves or removes a fixed root. -/
theorem fixed_apply (h : s.Tree) {op : Op} (hop : s.Admits op) {k : Handle}
    (hk : s.tag k ≠ none) (hfixed : s.isFixedRoot k = true) :
    (s.apply op).tag k = s.tag k ∧ (s.apply op).parent k = s.parent k := by
  cases op with
  | ins parent after node =>
    have hne : k ≠ s.highWater + 1 := by
      rintro rfl
      exact hk h.tag_fresh
    simp only [apply, Function.update_of_ne hne, and_self]
  | rm handle =>
    have hout : k ∉ s.subtree handle := by
      rw [(h.subtree_spec hop.1).2]
      intro hbelow
      exact Bool.false_ne_true (hop.2.symm.trans (h.isFixedRoot_above hfixed hbelow))
    simp only [apply, if_neg hout, and_self]
  | set => exact ⟨rfl, rfl⟩
  | mv handle parent after =>
    have hne : k ≠ handle := by
      rintro rfl
      rw [hop.2.2.1] at hfixed
      cases hfixed
    simp only [apply, Function.update_of_ne hne, and_self]

/-! ### One operation -/

theorem root_ne {handle : Handle} (hfixed : s.isFixedRoot handle = false) : handle ≠ Dom.root := by
  rintro rfl
  rw [isFixedRoot_of_le (by decide)] at hfixed
  cases hfixed

theorem not_mem_top {handle : Handle} (hfixed : s.isFixedRoot handle = false) :
    [Dom.meta, Dom.body, Dom.queues].filter (· ≠ handle) = [Dom.meta, Dom.body, Dom.queues] := by
  have hgt : ¬ handle ≤ Dom.queues := by
    intro hle
    rw [isFixedRoot_of_le hle] at hfixed
    cases hfixed
  apply List.filter_eq_self.2
  intro k hk
  have hle : k ≤ Dom.queues := by
    revert k
    decide
  have hne : k ≠ handle := by
    rintro rfl
    exact hgt hle
  simpa using hne

theorem admits_ne_root {parent : Handle} {tag : Tag} (h : Validation.admits parent tag) :
    parent ≠ Dom.root := by
  rintro rfl
  cases h

/-- The links after an admitted operation. -/
theorem rooted_apply (h : s.Tree) {op : Op} (hop : s.Admits op) :
    Rooted Dom.root (fun k => (s.apply op).tag k ≠ none) (s.apply op).parent
      (s.apply op).children := by
  cases op with
  | ins parent after node =>
    have hfresh : ¬ s.tag (s.highWater + 1) ≠ none := not_not.2 h.tag_fresh
    refine (h.toRooted.attach hfresh hop.1 (insertAfter_perm _ after _)).congr_live fun k => ?_
    simp only [apply, Function.update_apply]
    split
    · next heq => simp [heq]
    · next hne => simp [hne]
  | rm handle =>
    refine (h.toRooted.remove (root_ne hop.2) (h.subtree_spec hop.1).2).congr_live fun k => ?_
    simp only [apply]
    split
    · next hgone => simp [hgone]
    · next hout => simp [hout]
  | set => exact h.toRooted
  | mv handle parent after =>
    exact h.toRooted.move (root_ne hop.2.2.1) hop.1 hop.2.1 hop.2.2.2.2.1 (insertAfter_perm _ after _)

theorem tag_apply (h : s.Tree) {op : Op} {k : Nat} (hk : (s.apply op).tag k ≠ none) :
    0 < k ∧ k ≤ (s.apply op).highWater := by
  have hold : s.tag k ≠ none → s.highWater ≤ (s.apply op).highWater →
      0 < k ∧ k ≤ (s.apply op).highWater := fun hk hle => ⟨h.pos hk, (h.bounded hk).trans hle⟩
  cases op with
  | ins parent after node =>
    simp only [apply, Function.update_apply] at hk
    split at hk
    · next heq => exact ⟨heq ▸ Nat.succ_pos _, heq ▸ le_rfl⟩
    · exact hold hk (Nat.le_succ _)
  | rm handle =>
    simp only [apply] at hk
    split at hk
    · exact absurd rfl hk
    · exact hold hk le_rfl
  | set => exact hold hk le_rfl
  | mv handle parent after => exact hold hk le_rfl

protected theorem apply (h : s.Tree) {op : Op} (hop : s.Admits op) : (s.apply op).Tree := by
  have hcanonical : ∀ {k : Handle} {tag : Tag}, k ≤ Dom.queues → s.tag k = some tag →
      (s.apply op).tag k = some tag := by
    intro k tag hle htag
    rw [(h.fixed_apply hop (by simp [htag]) (isFixedRoot_of_le hle)).1, htag]
  refine ⟨h.rooted_apply hop, fun hk => (h.tag_apply hk).1, fun hk => (h.tag_apply hk).2,
    hcanonical (by decide) h.tag_root, hcanonical (by decide) h.tag_meta,
    hcanonical (by decide) h.tag_body, hcanonical (by decide) h.tag_queues, ?_⟩
  cases op with
  | ins parent after node =>
    simp only [apply, Function.update_of_ne (admits_ne_root hop.2.2).symm, h.top]
  | rm handle =>
    have hout : Dom.root ∉ s.subtree handle := by
      rw [(h.subtree_spec hop.1).2]
      intro hbelow
      exact Bool.false_ne_true
        (hop.2.symm.trans (h.isFixedRoot_above (isFixedRoot_of_le (by decide)) hbelow))
    simp only [apply, if_neg hout, detached, h.top]
    exact not_mem_top hop.2
  | set => exact h.top
  | mv handle parent after =>
    simp only [apply, Function.update_of_ne (admits_ne_root hop.2.2.2.1).symm, detached, h.top]
    exact not_mem_top hop.2.2.1

end Tree

end Skeleton

end OhMyPi
