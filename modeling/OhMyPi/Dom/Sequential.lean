import OhMyPi.Dom.Tree

/-! Validation is sequential: the overlay's answers are those of the tree to which the operations
before were applied, and applying an operation does to the tree what validation foresaw. -/

namespace OhMyPi

open Forest Skeleton

namespace Validation

/-- The tree that the overlay stands for. -/
def post (v : Validation) : Skeleton where
  tag := v.tag
  children h := if v.exists h then v.children h else []
  parent := v.parent
  highWater := v.highWater

@[simp] theorem post_parent (v : Validation) : v.post.parent = v.parent := rfl

@[simp] theorem post_highWater (v : Validation) : v.post.highWater = v.highWater := rfl

theorem exists_eq (v : Validation) (h : Handle) : v.exists h = (v.tag h).isSome := by
  rw [«exists», tag]
  cases v.removed.contains h with
  | true => rfl
  | false =>
    cases v.overlay h with
    | none => rfl
    | some node => rfl

theorem exists_iff {v : Validation} {h : Handle} : v.exists h = true ↔ v.post.tag h ≠ none := by
  rw [exists_eq, Option.isSome_iff_ne_none]
  rfl

theorem post_children {v : Validation} {h : Handle} (hlive : v.post.tag h ≠ none) :
    v.post.children h = v.children h := if_pos (exists_iff.2 hlive)

theorem isFixedRoot_post (v : Validation) (h : Handle) : v.post.isFixedRoot h = v.isFixedRoot h := by
  rw [isFixedRoot_eq]
  rfl

theorem isAncestor_eq (v : Validation) (ancestor node : Handle) :
    v.isAncestor ancestor node = climb v.post.parent ancestor (v.highWater + 1) node := by
  have hclimb : ∀ rounds node,
      v.isAncestorFrom ancestor rounds node = climb v.post.parent ancestor rounds node := by
    intro rounds
    induction rounds with
    | zero => exact fun _ => rfl
    | succ rounds ih =>
      intro node
      rw [isAncestorFrom, climb]
      split
      · rfl
      · rw [post_parent]
        cases v.parent node with
        | none => rfl
        | some p => exact ih p
  exact hclimb _ _

/-- The overlay of a tree, which removed only handles it had. -/
structure Sound (v : Validation) : Prop where
  tree : v.post.Tree
  removed : ∀ h ∈ v.removed, h ≤ v.highWater

section

variable {v : Validation}

theorem require_eq_ok {h : Handle} {i : Nat} :
    v.require h i = .ok () ↔ v.post.tag h ≠ none := by
  rw [require, ← exists_iff]
  split
  · next h => simp [h]
  · next h => simp [h]

theorem topology_eq_ok {parent h : Handle} {tag : Tag} {i : Nat} :
    topology parent h tag i = .ok () ↔ admits parent tag := by
  rw [topology]
  split
  · next h => simp [h]
  · next h => simp [h]

theorem not_removed {h : Handle} (hlive : v.post.tag h ≠ none) : h ∉ v.removed := by
  intro hremoved
  exact hlive (if_pos (List.contains_iff_mem.2 hremoved))

theorem Sound.anchor_eq_ok (hv : v.Sound) {parent : Handle} (hparent : v.post.tag parent ≠ none)
    {after : Option Handle} {i : Nat} :
    v.anchor parent after i = .ok () ↔ ∀ a ∈ after, a ∈ v.post.children parent := by
  cases after with
  | none => simp [anchor]
  | some a =>
    simp only [anchor, Option.mem_def, Option.some.injEq, forall_eq', ← post_children hparent]
    rw [Except.ite_error_eq_ok]
    by_cases ha : a ∈ v.post.children parent
    · simp [ha, not_removed (hv.tree.live_of_mem_kids ha)]
    · simp [ha]

theorem Sound.isAncestor_iff (hv : v.Sound) {ancestor node : Handle}
    (hnode : v.post.tag node ≠ none) :
    v.isAncestor ancestor node = true ↔ Below v.post.parent node ancestor := by
  rw [isAncestor_eq]
  refine ⟨below_of_climb, fun h => climb_eq_true hv.tree.acyclic (List.range (v.highWater + 1)) ?_
    List.length_range.le h⟩
  intro x hx
  exact hv.tree.mem_range (hv.tree.live_above hnode hx)

/-! ### Scratch copies -/

theorem touched_of_live {h : Handle} {t : Tag} (hlive : v.post.tag h = some t) :
    v.touched h = some { tag := t, parent := v.post.parent h, kids := v.post.children h } := by
  have hremoved := not_removed (v := v) (h := h) (by simp [hlive])
  rw [post_children (by simp [hlive])]
  replace hlive : v.tag h = some t := hlive
  rw [tag, if_neg (by simpa using hremoved)] at hlive
  rw [post_parent, touched, parent, if_neg (by simpa using hremoved), children]
  cases hoverlay : v.overlay h with
  | none =>
    rw [hoverlay] at hlive
    simp only [Option.map_none, Option.none_or] at hlive
    rw [Option.none_or, hlive]
    rfl
  | some node =>
    rw [hoverlay] at hlive
    simp only [Option.map_some, Option.some_or, Option.some.injEq] at hlive
    rw [Option.some_or, ← hlive]

/-- A changed scratch copy shows in the tree at its handle only. -/
theorem touch_post {h : Handle} {t : Tag} (hlive : v.post.tag h = some t)
    (f : ScratchNode → ScratchNode) {node : ScratchNode}
    (hnode : node = f { tag := t, parent := v.post.parent h, kids := v.post.children h }) :
    (v.touch h f).post =
      { tag := Function.update v.post.tag h (some node.tag)
        children := Function.update v.post.children h node.kids
        parent := Function.update v.post.parent h node.parent
        highWater := v.post.highWater } := by
  have hremoved := not_removed (v := v) (h := h) (by simp [hlive])
  have htouch : v.touch h f = { v with overlay := Function.update v.overlay h (some node) } := by
    rw [touch, touched_of_live hlive, Option.map_some, hnode]
  have htag : (v.touch h f).tag = Function.update v.post.tag h (some node.tag) := by
    funext k
    rw [htouch]
    by_cases hk : k = h
    · subst hk
      simp [tag, hremoved]
    · simp [tag, Function.update_of_ne hk, post]
  rw [post, htag]
  congr 1
  · funext k
    rw [exists_eq, htag, htouch]
    by_cases hk : k = h
    · subst hk
      simp [children]
    · simp only [Function.update_of_ne hk, children, post, exists_eq]
  · funext k
    rw [htouch]
    by_cases hk : k = h
    · subst hk
      simp [parent, hremoved]
    · simp [parent, Function.update_of_ne hk]

theorem touch_kids_post {h : Handle} (hlive : v.post.tag h ≠ none) (f : List Handle → List Handle) :
    (v.touch h fun node => { node with kids := f node.kids }).post =
      { v.post with children := Function.update v.post.children h (f (v.post.children h)) } := by
  obtain ⟨t, ht⟩ := Option.ne_none_iff_exists'.1 hlive
  rw [touch_post ht _ rfl, ← ht, Function.update_eq_self, Function.update_eq_self]

theorem touch_parent_post {h : Handle} (hlive : v.post.tag h ≠ none) (p : Option Handle) :
    (v.touch h fun node => { node with parent := p }).post =
      { v.post with parent := Function.update v.post.parent h p } := by
  obtain ⟨t, ht⟩ := Option.ne_none_iff_exists'.1 hlive
  rw [touch_post ht _ rfl, ← ht, Function.update_eq_self, Function.update_eq_self]

@[simp] theorem touch_removed (h : Handle) (f : ScratchNode → ScratchNode) :
    (v.touch h f).removed = v.removed := rfl

@[simp] theorem touch_highWater (h : Handle) (f : ScratchNode → ScratchNode) :
    (v.touch h f).highWater = v.highWater := rfl

/-- The walk of `remove` does not read what it writes. -/
theorem removePending_eq (rounds : Nat) (pending : List Handle) :
    v.removePending rounds pending =
      { v with removed := (walk v.children rounds pending).reverse ++ v.removed } := by
  induction rounds generalizing v pending with
  | zero => rfl
  | succ rounds ih =>
    rw [removePending, walk]
    cases pending.getLast? with
    | none => rfl
    | some current =>
      dsimp only
      rw [ih, List.reverse_cons, List.append_assoc]
      rfl

/-- More removed handles. -/
theorem post_removed (gone : List Handle) :
    ({ v with removed := gone.reverse ++ v.removed } : Validation).post =
      { tag := fun h => if h ∈ gone then none else v.post.tag h
        children := fun h => if h ∈ gone then [] else v.post.children h
        parent := fun h => if h ∈ gone then none else v.post.parent h
        highWater := v.post.highWater } := by
  have htag : ({ v with removed := gone.reverse ++ v.removed } : Validation).tag =
      fun h => if h ∈ gone then none else v.tag h := by
    funext h
    by_cases hgone : h ∈ gone
    · simp [tag, hgone]
    · simp [tag, hgone]
  rw [post, htag]
  congr 1
  · funext h
    rw [exists_eq, htag]
    by_cases hgone : h ∈ gone
    · simp [hgone]
    · simp [hgone, post, exists_eq, children]
  · funext h
    by_cases hgone : h ∈ gone
    · simp [parent, hgone]
    · simp [parent, hgone]

theorem Sound.detach_post (hv : v.Sound) {handle old : Handle}
    (hold : v.post.parent handle = some old) :
    (v.detach old handle).post = { v.post with children := v.post.detached handle } := by
  rw [detach, touch_kids_post (hv.tree.parent_live hold) fun kids => kids.filter (· ≠ handle)]
  rw [← hv.tree.update_detached hold]
  rfl

/-- The handles that `remove` meets, on the overlay. -/
theorem Sound.walk_detach (hv : v.Sound) {handle old : Handle} (hlive : v.post.tag handle ≠ none)
    (hold : v.post.parent handle = some old) :
    walk (v.detach old handle).children (v.highWater + 1) [handle] = v.post.subtree handle := by
  have hdetach := hv.detach_post hold
  apply walk_congr
  intro x hx
  have hx : v.post.tag x ≠ none :=
    hv.tree.live_of_below hlive (((hv.tree.subtree_spec hlive).2 x).1 hx)
  have hx' : (v.detach old handle).post.tag x ≠ none := by rwa [hdetach]
  rw [← post_children hx', hdetach]

theorem Sound.remove_spec (hv : v.Sound) {handle : Handle} (hlive : v.post.tag handle ≠ none)
    (hroot : handle ≠ Dom.root) :
    (v.remove handle).post = v.post.apply (.rm handle) ∧
      ∀ h ∈ (v.remove handle).removed, h ≤ v.highWater := by
  obtain ⟨old, hold⟩ := hv.tree.exists_parent hlive hroot
  have hdetach := hv.detach_post hold
  have hwalk := hv.walk_detach hlive hold
  have hremove : v.remove handle = { v.detach old handle with
      removed := (v.post.subtree handle).reverse ++ (v.detach old handle).removed } := by
    rw [← hwalk]
    simp only [remove, ← post_parent, hold]
    exact removePending_eq _ _
  rw [hremove]
  constructor
  · rw [post_removed, hdetach]
    rfl
  · intro h hh
    rcases List.mem_append.1 hh with hh | hh
    · have hbelow := ((hv.tree.subtree_spec hlive).2 h).1 (List.mem_reverse.1 hh)
      exact hv.tree.bounded (hv.tree.live_of_below hlive hbelow)
    · exact hv.removed h hh

/-- A scratch copy for a new handle. -/
theorem Sound.mint_post (hv : v.Sound) (t : Tag) (p : Handle) :
    ({ v with
        highWater := v.highWater + 1
        overlay := Function.update v.overlay (v.highWater + 1)
          (some { tag := t, parent := some p, kids := [] }) } : Validation).post =
      { tag := Function.update v.post.tag (v.highWater + 1) (some t)
        children := v.post.children
        parent := Function.update v.post.parent (v.highWater + 1) (some p)
        highWater := v.highWater + 1 } := by
  have hremoved : v.highWater + 1 ∉ v.removed := fun h => absurd (hv.removed _ h) (Nat.not_succ_le_self _)
  have htag : ({ v with
        highWater := v.highWater + 1
        overlay := Function.update v.overlay (v.highWater + 1)
          (some { tag := t, parent := some p, kids := [] }) } : Validation).tag =
      Function.update v.post.tag (v.highWater + 1) (some t) := by
    funext k
    by_cases hk : k = v.highWater + 1
    · subst hk
      simp [tag, hremoved]
    · simp [tag, Function.update_of_ne hk, post]
  rw [post, htag]
  congr 1
  · funext k
    rw [exists_eq, htag]
    by_cases hk : k = v.highWater + 1
    · subst hk
      have hnil : v.post.children (v.highWater + 1) = [] :=
        hv.tree.kids_eq_nil (not_not.2 hv.tree.tag_fresh)
      rw [hnil]
      simp [children]
    · simp only [Function.update_of_ne hk, children, post, exists_eq]
  · funext k
    by_cases hk : k = v.highWater + 1
    · subst hk
      simp [parent, hremoved]
    · simp [parent, Function.update_of_ne hk]

/-! ### One operation -/

/-- The overlay after an operation that passes. -/
def next (v : Validation) : Op → Validation
  | .ins parent after node =>
    ({ v with
        highWater := v.highWater + 1
        overlay := Function.update v.overlay (v.highWater + 1)
          (some { tag := node.tag, parent := some parent, kids := [] }) } : Validation).insertChild
      parent after (v.highWater + 1)
  | .rm handle => v.remove handle
  | .set .. => v
  | .mv handle parent after =>
    ((match v.parent handle with
      | some old => v.detach old handle
      | none => v).insertChild parent after handle).touch handle
        fun node => { node with parent := some parent }

/-- An operation passes when it finds what it must. -/
theorem Sound.step_eq_ok (hv : v.Sound) {i : Nat} {op : Op} {r : Validation × Option Handle} :
    v.step i op = .ok r ↔ v.post.Admits op ∧ (v.next op, v.post.mints op) = r := by
  cases op with
  | ins parent after node =>
    simp only [step, Except.unit_bind_eq_ok, Except.pure_eq_ok, require_eq_ok, topology_eq_ok,
      Admits, and_assoc]
    refine and_congr_right fun hparent => ?_
    rw [hv.anchor_eq_ok hparent]
    rfl
  | rm handle =>
    simp only [step, Except.unit_bind_eq_ok, Except.ite_throw_eq_ok, Except.pure_eq_ok,
      require_eq_ok, Admits, and_assoc, isFixedRoot_post, Bool.not_eq_true]
    rfl
  | set handle prop value =>
    simp only [step, Except.unit_bind_eq_ok, Except.pure_eq_ok, require_eq_ok, Admits]
    rfl
  | mv handle parent after =>
    simp only [step, Except.unit_bind_eq_ok, Except.ite_throw_eq_ok, Except.pure_eq_ok,
      require_eq_ok, topology_eq_ok, Admits, and_assoc, isFixedRoot_post, Bool.not_eq_true]
    refine and_congr_right fun _ => and_congr_right fun hparent => ?_
    rw [hv.anchor_eq_ok hparent, ← hv.isAncestor_iff hparent, Bool.not_eq_true]
    rfl

theorem Sound.next_post (hv : v.Sound) {op : Op} (hop : v.post.Admits op) :
    (v.next op).post = v.post.apply op := by
  cases op with
  | ins parent after node =>
    have hne : parent ≠ v.highWater + 1 := by
      rintro rfl
      exact hop.1 hv.tree.tag_fresh
    rw [next, insertChild, touch_kids_post (f := fun kids => insertAfter kids after (v.highWater + 1)),
      hv.mint_post]
    · rfl
    · rw [hv.mint_post]
      simpa only [Function.update_of_ne hne] using hop.1
  | rm handle => exact (hv.remove_spec hop.1 (Tree.root_ne hop.2)).1
  | set => rfl
  | mv handle parent after =>
    obtain ⟨old, hold⟩ := hv.tree.exists_parent hop.1 (Tree.root_ne hop.2.2.1)
    have hdetach := hv.detach_post hold
    rw [post_parent] at hold
    rw [next, hold, insertChild]
    dsimp only
    rw [touch_parent_post, touch_kids_post (f := fun kids => insertAfter kids after handle), hdetach]
    · rfl
    · rw [hdetach]
      exact hop.2.1
    · rw [touch_kids_post (f := fun kids => insertAfter kids after handle), hdetach]
      · exact hop.1
      · rw [hdetach]
        exact hop.2.1

theorem Sound.next (hv : v.Sound) {op : Op} (hop : v.post.Admits op) : (v.next op).Sound := by
  refine ⟨hv.next_post hop ▸ hv.tree.apply hop, ?_⟩
  cases op with
  | ins parent after node =>
    intro h hh
    exact (hv.removed h hh).trans (Nat.le_succ _)
  | rm handle =>
    intro h hh
    have hhighWater : (v.remove handle).highWater = v.highWater :=
      congrArg Skeleton.highWater (hv.remove_spec hop.1 (Tree.root_ne hop.2)).1
    rw [Validation.next, hhighWater]
    exact (hv.remove_spec hop.1 (Tree.root_ne hop.2)).2 h hh
  | set => exact hv.removed
  | mv handle parent after =>
    have hkept : (v.next (.mv handle parent after)).removed = v.removed ∧
        (v.next (.mv handle parent after)).highWater = v.highWater := by
      rw [Validation.next]
      cases v.parent handle with
      | none => exact ⟨rfl, rfl⟩
      | some old => exact ⟨rfl, rfl⟩
    rw [hkept.1, hkept.2]
    exact hv.removed

end

end Validation

/-! ## Whole transactions -/

namespace Skeleton

/-- Every operation finds what it must, after those before it. -/
def AdmitsAll (s : Skeleton) : List Op → Prop
  | [] => True
  | op :: ops => s.Admits op ∧ (s.apply op).AdmitsAll ops

def applyAll (s : Skeleton) (ops : List Op) : Skeleton := ops.foldl apply s

/-- The handles that the operations mint, in order. -/
def mintsAll (s : Skeleton) : List Op → List Handle
  | [] => []
  | op :: ops => (s.mints op).toList ++ (s.apply op).mintsAll ops

variable {s : Skeleton}

theorem Tree.applyAll (h : s.Tree) {ops : List Op} (hops : s.AdmitsAll ops) :
    (s.applyAll ops).Tree := by
  induction ops generalizing s with
  | nil => exact h
  | cons op ops ih => exact ih (h.apply hops.1) hops.2

end Skeleton

theorem Validation.Sound.validateFrom_eq_ok {v : Validation} (hv : v.Sound) {i : Nat}
    {ops : List Op} {minted : List Handle} :
    v.validateFrom i ops = .ok minted ↔ v.post.AdmitsAll ops ∧ v.post.mintsAll ops = minted := by
  induction ops generalizing v i minted with
  | nil =>
    rw [validateFrom, AdmitsAll, mintsAll, true_and]
    exact Except.pure_eq_ok
  | cons op ops ih =>
    rw [validateFrom, Except.bind_eq_ok]
    simp only [hv.step_eq_ok, AdmitsAll, mintsAll, and_assoc, exists_and_left]
    refine and_congr_right fun hop => ?_
    rw [exists_eq_left']
    dsimp only
    rw [Except.bind_eq_ok]
    simp only [ih (hv.next hop), hv.next_post hop, Except.pure_eq_ok, and_assoc, exists_and_left]
    rw [exists_eq_left']

namespace Dom

@[simp] theorem skeleton_children (dom : Dom) : dom.skeleton.children = dom.children := rfl

@[simp] theorem skeleton_parent (dom : Dom) : dom.skeleton.parent = dom.parents := rfl

@[simp] theorem skeleton_highWater (dom : Dom) : dom.skeleton.highWater = dom.highWater := rfl

theorem skeleton_tag_ne_none {dom : Dom} {h : Handle} :
    dom.skeleton.tag h ≠ none ↔ dom.nodes h ≠ none := by
  rw [skeleton, Ne, Option.map_eq_none_iff]

/-- A fresh overlay stands for the tree itself. -/
theorem post_skeleton (dom : Dom) : ({ dom := dom.skeleton : Validation }).post = dom.skeleton := by
  have htag : ({ dom := dom.skeleton : Validation }).tag = dom.skeleton.tag := by
    funext h
    simp [Validation.tag]
  rw [Validation.post, htag]
  congr 1
  · funext h
    rw [Validation.exists_eq, htag]
    cases hnode : dom.nodes h with
    | none => simp [skeleton, hnode, children]
    | some node => simp [skeleton, hnode, Validation.children]

section

variable {dom : Dom}

theorem sound_skeleton (h : dom.skeleton.Tree) : ({ dom := dom.skeleton : Validation }).Sound :=
  ⟨by rwa [post_skeleton], fun _ hh => nomatch hh⟩

/-- A transaction is validated as if its operations were applied one after the other. -/
theorem validateOps_eq_ok (h : dom.skeleton.Tree) {ops : List Op} {minted : List Handle} :
    dom.validateOps ops = .ok minted ↔
      dom.skeleton.AdmitsAll ops ∧ dom.skeleton.mintsAll ops = minted := by
  rw [validateOps, (sound_skeleton h).validateFrom_eq_ok, post_skeleton]

theorem skeleton_modifyNode {f : Node → Node} (htag : ∀ n, (f n).tag = n.tag)
    (hkids : ∀ n, (f n).kids = n.kids) (h : Handle) :
    (dom.modifyNode h f).skeleton = dom.skeleton := by
  rw [skeleton, skeleton]
  congr 1
  · funext k
    by_cases hk : k = h
    · subst hk
      simp only [modifyNode, Function.update_self, Option.map_map]
      cases dom.nodes k with
      | none => rfl
      | some n => simp [htag]
    · simp only [modifyNode, Function.update_of_ne hk]
  · funext k
    by_cases hk : k = h
    · subst hk
      simp only [children, modifyNode, Function.update_self, Option.map_map]
      cases dom.nodes k with
      | none => rfl
      | some n => simp [hkids]
    · simp only [children, modifyNode, Function.update_of_ne hk]

theorem skeleton_modifyKids {h : Handle} (hlive : dom.skeleton.tag h ≠ none)
    (f : List Handle → List Handle) :
    (dom.modifyNode h fun node => { node with kids := f node.kids }).skeleton =
      { dom.skeleton with
        children := Function.update dom.skeleton.children h (f (dom.skeleton.children h)) } := by
  obtain ⟨node, hnode⟩ := Option.ne_none_iff_exists'.1 (skeleton_tag_ne_none.1 hlive)
  rw [skeleton, skeleton]
  congr 1
  · funext k
    by_cases hk : k = h
    · subst hk
      simp [modifyNode, hnode]
    · simp only [modifyNode, Function.update_of_ne hk]
  · funext k
    by_cases hk : k = h
    · subst hk
      simp [children, modifyNode, hnode]
    · simp only [children, modifyNode, Function.update_of_ne hk]

theorem children_takeNode (h : Handle) :
    (dom.takeNode h).children = Function.update dom.children h [] := by
  funext k
  by_cases hk : k = h
  · subst hk
    simp [children, takeNode]
  · simp only [children, takeNode, Function.update_of_ne hk]

/-- The loop of `remove_subtree` takes out what it walks over, when it meets nothing twice. -/
theorem skeleton_removePending (rounds : Nat) (pending : List Handle)
    (hnodup : (walk dom.children rounds pending).Nodup) :
    (dom.removePending rounds pending).skeleton =
      { tag := fun h => if h ∈ walk dom.children rounds pending then none else dom.skeleton.tag h
        children := fun h =>
          if h ∈ walk dom.children rounds pending then [] else dom.skeleton.children h
        parent := fun h =>
          if h ∈ walk dom.children rounds pending then none else dom.skeleton.parent h
        highWater := dom.highWater } := by
  induction rounds generalizing dom pending with
  | zero => simp [removePending, walk, skeleton]
  | succ rounds ih =>
    rw [removePending]
    rw [walk] at hnodup ⊢
    cases hlast : pending.getLast? with
    | none => simp [skeleton]
    | some current =>
      simp only [hlast] at hnodup ⊢
      rw [List.nodup_cons] at hnodup
      have hwalk : walk (dom.takeNode current).children rounds
          (pending.dropLast ++ dom.children current) =
          walk dom.children rounds (pending.dropLast ++ dom.children current) := by
        apply walk_congr
        intro x hx
        rw [children_takeNode, Function.update_of_ne]
        rintro rfl
        exact hnodup.1 hx
      rw [ih _ (hwalk ▸ hnodup.2), hwalk]
      congr 1
      · funext k
        by_cases hk : k = current
        · subst hk
          simp [skeleton, takeNode]
        · simp [skeleton, takeNode, hk]
      · funext k
        rw [skeleton_children, children_takeNode]
        by_cases hk : k = current
        · subst hk
          simp
        · simp [hk]
      · funext k
        by_cases hk : k = current
        · subst hk
          simp [takeNode]
        · simp [takeNode, hk]

theorem skeleton_detach (h : dom.skeleton.Tree) {handle old : Handle}
    (hold : dom.parents handle = some old) :
    (dom.modifyNode old fun node => { node with kids := node.kids.filter (· ≠ handle) }).skeleton =
      { dom.skeleton with children := dom.skeleton.detached handle } := by
  rw [skeleton_modifyKids (h.parent_live hold) fun kids => kids.filter (· ≠ handle)]
  rw [← h.update_detached hold]
  rfl

/-- A node put under the next handle, not yet listed by its parent. -/
theorem skeleton_mint (h : dom.skeleton.Tree) (node : NodeSpec) (parent : Handle) :
    ({ dom with
        highWater := dom.highWater + 1
        nodes := Function.update dom.nodes (dom.highWater + 1) (some (Node.fromSpec node))
        parents := Function.update dom.parents (dom.highWater + 1) (some parent) } : Dom).skeleton =
      { tag := Function.update dom.skeleton.tag (dom.highWater + 1) (some node.tag)
        children := dom.skeleton.children
        parent := Function.update dom.skeleton.parent (dom.highWater + 1) (some parent)
        highWater := dom.highWater + 1 } := by
  rw [skeleton]
  congr 1
  · funext k
    by_cases hk : k = dom.highWater + 1
    · subst hk
      simp [Node.fromSpec]
    · simp [Function.update_of_ne hk, skeleton]
  · funext k
    by_cases hk : k = dom.highWater + 1
    · subst hk
      have hnil : dom.skeleton.children (dom.highWater + 1) = [] :=
        h.kids_eq_nil (not_not.2 h.tag_fresh)
      rw [hnil]
      simp [children, Node.fromSpec]
    · simp [children, Function.update_of_ne hk, skeleton]

/-- Applying an operation does to the tree what validation foresaw. -/
theorem skeleton_applyOp (h : dom.skeleton.Tree) {op : Op} (hop : dom.skeleton.Admits op) :
    (dom.applyOp op).skeleton = dom.skeleton.apply op := by
  cases op with
  | ins parent after node =>
    have hne : parent ≠ dom.highWater + 1 := by
      rintro rfl
      exact hop.1 h.tag_fresh
    have hminted := skeleton_mint h node parent
    rw [applyOp, skeleton_modifyKids (f := fun kids => insertAfter kids after (dom.highWater + 1)),
      hminted]
    · rfl
    · rw [hminted]
      simpa only [Function.update_of_ne hne] using hop.1
  | rm handle =>
    obtain ⟨old, hold⟩ := h.exists_parent hop.1 (Tree.root_ne hop.2)
    have hdetach := skeleton_detach h hold
    have hspec := h.subtree_spec hop.1
    rw [skeleton_parent] at hold
    simp only [applyOp, removeSubtree, parent, hold]
    have hchildren : (dom.modifyNode old fun node =>
        { node with kids := node.kids.filter (· ≠ handle) }).children = dom.skeleton.detached handle :=
      congrArg Skeleton.children hdetach
    rw [skeleton_removePending, hchildren, hdetach]
    · rfl
    · rw [hchildren]
      exact hspec.1
  | set handle prop value =>
    exact skeleton_modifyNode (f := (·.setProp prop value)) (fun _ => rfl) (fun _ => rfl) handle
  | mv handle parent after =>
    obtain ⟨old, hold⟩ := h.exists_parent hop.1 (Tree.root_ne hop.2.2.1)
    have hdetach := skeleton_detach h hold
    rw [skeleton_parent] at hold
    have hparent : ∀ (dom : Dom) (handle : Handle) (p : Option Handle),
        (dom.setParent handle p).skeleton =
          { dom.skeleton with parent := Function.update dom.skeleton.parent handle p } :=
      fun _ _ _ => rfl
    simp only [applyOp, moveNode, Dom.parent, hold]
    rw [hparent, skeleton_modifyKids (f := fun kids => insertAfter kids after handle), hdetach]
    · rfl
    · rw [hdetach]
      exact hop.2.1

theorem skeleton_applyOps (h : dom.skeleton.Tree) {ops : List Op} (hops : dom.skeleton.AdmitsAll ops) :
    (dom.applyOps ops).skeleton = dom.skeleton.applyAll ops := by
  induction ops generalizing dom with
  | nil => rfl
  | cons op ops ih =>
    have hop := skeleton_applyOp h hops.1
    have hrest := @ih (dom.applyOp op) (hop ▸ h.apply hops.1) (hop ▸ hops.2)
    rw [hop] at hrest
    exact hrest

/-- What a committed transaction did. -/
theorem apply_eq_ok (h : dom.skeleton.Tree) {txn : Txn} {dom' : Dom} {minted : List Handle} :
    dom.apply txn = .ok (dom', minted) ↔ dom.skeleton.AdmitsAll txn.ops ∧
      dom' = dom.applyOps txn.ops ∧ minted = dom.skeleton.mintsAll txn.ops := by
  rw [Dom.apply, Except.bind_eq_ok]
  simp only [validateOps_eq_ok h, and_assoc, exists_and_left, exists_eq_left', Except.pure_eq_ok,
    Prod.mk.injEq]
  exact and_congr_right fun _ => and_congr eq_comm eq_comm

end

end Dom

/-! ## Snapshots -/

theorem Dom.skeleton_fromSnapshot {s : Snapshot} {nodes : Handle → Option Node}
    (hnodes : s.nodes = materializeAll nodes s.streams) :
    (fromSnapshot s).skeleton =
      { tag := fun h => (nodes h).map Node.tag
        children := fun h => ((nodes h).map Node.kids).getD []
        parent := s.parents
        highWater := s.highWater } := by
  rw [skeleton]
  congr 1
  · funext h
    rw [fromSnapshot, hnodes]
    exact materializeAll_map (fun _ _ _ => rfl) ..
  · funext h
    rw [children, fromSnapshot, hnodes]
    exact congrArg (Option.getD · []) (materializeAll_map (fun _ _ _ => rfl) ..)

/-- A snapshot has the structure of the tree it was taken of. -/
theorem Dom.skeleton_snapshot {dom : Dom} (h : dom.Live) :
    (fromSnapshot (dom.snapshot h)).skeleton = dom.skeleton :=
  skeleton_fromSnapshot rfl

end OhMyPi
