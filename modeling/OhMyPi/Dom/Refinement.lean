import OhMyPi.Dom.History

/-! Validation against application (`dom/src/txn.rs`). The definitions with a question mark follow
the source through its `expect`s, indices and loops: they have no result where the source panics or
does not come to an end. -/

namespace OhMyPi

open Forest Skeleton

/-! ## Application, with its panics -/

namespace Dom

/-- The loop of `remove_subtree`; the arena ends at the high-water mark. -/
def removePending? (dom : Dom) : Nat → List Handle → Option Dom
  | 0, pending => if pending = [] then some dom else none
  | rounds + 1, pending =>
    match pending.getLast? with
    | none => some dom
    | some current =>
      if dom.highWater < current then none
      else (dom.takeNode current).removePending? rounds (pending.dropLast ++ dom.children current)

def removeSubtree? (dom : Dom) (handle : Handle) : Option Dom :=
  match dom.parent handle with
  | none => none
  | some parent =>
    (dom.modifyNode parent fun node => { node with kids := node.kids.filter (· ≠ handle) })
      |>.removePending? (dom.highWater + 1) [handle]

def moveNode? (dom : Dom) (handle parent : Handle) (after : Option Handle) : Option Dom :=
  match dom.parent handle with
  | none => none
  | some old =>
    if (dom.nodes old).isNone then none
    else
      let dom := dom.modifyNode old fun node => { node with kids := node.kids.filter (· ≠ handle) }
      if (dom.nodes parent).isNone || dom.highWater < handle then none
      else
        some ((dom.modifyNode parent fun node =>
          { node with kids := insertAfter node.kids after handle }).setParent handle (some parent))

/-- `apply_validated`: the tree after one operation and the handle that it inserted. -/
def applyOp? (dom : Dom) : Op → Option (Dom × Option Handle)
  | .ins parent after node =>
    let handle := dom.highWater + 1
    let dom := { dom with
      highWater := handle
      nodes := Function.update dom.nodes handle (some (Node.fromSpec node))
      parents := Function.update dom.parents handle (some parent) }
    if (dom.nodes parent).isNone then none
    else
      some (dom.modifyNode parent fun node =>
        { node with kids := insertAfter node.kids after handle }, some handle)
  | .rm handle => (dom.removeSubtree? handle).map (·, none)
  | .set handle prop value =>
    if (dom.nodes handle).isNone then none
    else some (dom.modifyNode handle (·.setProp prop value), none)
  | .mv handle parent after => (dom.moveNode? handle parent after).map (·, none)

/-- All operations, with the handles inserted. -/
def applyOps? (dom : Dom) : List Op → Option (Dom × List Handle)
  | [] => some (dom, [])
  | op :: ops =>
    match dom.applyOp? op with
    | none => none
    | some (dom, handle) =>
      (dom.applyOps? ops).map fun applied => (applied.1, handle.toList ++ applied.2)

end Dom

/-! ## Validation, with its panics -/

namespace Validation

/-- `touch`: only existing nodes are touched. -/
def touch? (v : Validation) (handle : Handle) (f : ScratchNode → ScratchNode) : Option Validation :=
  (v.touched handle).map fun node =>
    { v with overlay := Function.update v.overlay handle (some (f node)) }

def insertChild? (v : Validation) (parent : Handle) (after : Option Handle) (handle : Handle) :
    Option Validation :=
  v.touch? parent fun node => { node with kids := insertAfter node.kids after handle }

def detach? (v : Validation) (parent handle : Handle) : Option Validation :=
  v.touch? parent fun node => { node with kids := node.kids.filter (· ≠ handle) }

/-- The loop of `remove`. -/
def removePending? (v : Validation) : Nat → List Handle → Option Validation
  | 0, pending => if pending = [] then some v else none
  | rounds + 1, pending =>
    match pending.getLast? with
    | none => some v
    | some current =>
      removePending? { v with removed := current :: v.removed } rounds
        (pending.dropLast ++ v.children current)

def remove? (v : Validation) (handle : Handle) : Option Validation :=
  match v.parent handle with
  | none => none
  | some parent =>
    match v.detach? parent handle with
    | none => none
    | some v => v.removePending? (v.highWater + 1) [handle]

/-- The loop of `is_ancestor`. -/
def isAncestor? (v : Validation) (ancestor : Handle) : Nat → Handle → Option Bool
  | 0, _ => none
  | rounds + 1, node =>
    if ancestor = node then some true
    else
      match v.parent node with
      | none => some false
      | some parent => isAncestor? v ancestor rounds parent

/-- The change of a move that passed its checks. -/
def move? (v : Validation) (handle parent : Handle) (after : Option Handle) : Option Validation :=
  match v.parent handle with
  | none => none
  | some old =>
    match v.detach? old handle with
    | none => none
    | some v =>
      match v.insertChild? parent after handle with
      | none => none
      | some v => v.touch? handle fun node => { node with parent := some parent }

/-- One operation: no result where the source panics. -/
def step? (v : Validation) (opIndex : Nat) :
    Op → Option (Except DomError (Validation × Option Handle))
  | .ins parent after node =>
    match v.require parent opIndex with
    | .error e => some (.error e)
    | .ok () =>
      match v.anchor parent after opIndex with
      | .error e => some (.error e)
      | .ok () =>
        let handle := v.highWater + 1
        match topology parent handle node.tag opIndex with
        | .error e => some (.error e)
        | .ok () =>
          let scratch : ScratchNode := { tag := node.tag, parent := some parent, kids := [] }
          let v := { v with
            highWater := handle
            overlay := Function.update v.overlay handle (some scratch) }
          (v.insertChild? parent after handle).map fun v => .ok (v, some handle)
  | .rm handle =>
    match v.require handle opIndex with
    | .error e => some (.error e)
    | .ok () =>
      if v.isFixedRoot handle then
        (v.tag handle).map fun tag => .error (.topology opIndex handle tag)
      else (v.remove? handle).map fun v => .ok (v, none)
  | .set handle _ _ => some ((v.require handle opIndex).map fun _ => (v, none))
  | .mv handle parent after =>
    match v.require handle opIndex with
    | .error e => some (.error e)
    | .ok () =>
      match v.require parent opIndex with
      | .error e => some (.error e)
      | .ok () =>
        match v.tag handle with
        | none => none
        | some tag =>
          if v.isFixedRoot handle then some (.error (.topology opIndex handle tag))
          else
            match topology parent handle tag opIndex with
            | .error e => some (.error e)
            | .ok () =>
              match v.isAncestor? handle (v.highWater + 1) parent with
              | none => none
              | some true => some (.error (.cycle opIndex handle parent))
              | some false =>
                match v.anchor parent after opIndex with
                | .error e => some (.error e)
                | .ok () =>
                  if after = some handle then some (.error (.badAnchor opIndex parent handle))
                  else (v.move? handle parent after).map fun v => .ok (v, none)

def validateFrom? (v : Validation) (opIndex : Nat) :
    List Op → Option (Except DomError (List Handle))
  | [] => some (.ok [])
  | op :: ops =>
    match v.step? opIndex op with
    | none => none
    | some (.error e) => some (.error e)
    | some (.ok (v, minted)) =>
      (v.validateFrom? (opIndex + 1) ops).map fun rest => rest.map (minted.toList ++ ·)

end Validation

/-! ## The loops end -/

namespace Skeleton.Tree

variable {s : Skeleton}

/-- A subtree has fewer nodes than handles were minted, root and unused numbers apart. -/
theorem length_subtree (h : s.Tree) {handle : Handle} (hlive : s.tag handle ≠ none) :
    (s.subtree handle).length ≤ s.highWater ∧ ∀ x ∈ s.subtree handle, x ≤ s.highWater := by
  obtain ⟨hnodup, hmem⟩ := h.subtree_spec hlive
  have hlive' : ∀ x ∈ s.subtree handle, s.tag x ≠ none :=
    fun x hx => h.live_of_below hlive ((hmem x).1 hx)
  have hsub : s.subtree handle ⊆ (List.range s.highWater).map (· + 1) := by
    intro x hx
    have hpos := h.pos (hlive' x hx)
    have hle := h.bounded (hlive' x hx)
    exact List.mem_map.2 ⟨x - 1, List.mem_range.2 (by omega), Nat.sub_add_cancel hpos⟩
  have hlength := (List.subperm_of_subset hnodup hsub).length_le
  rw [List.length_map, List.length_range] at hlength
  exact ⟨hlength, fun x hx => h.bounded (hlive' x hx)⟩

end Skeleton.Tree

namespace Dom

variable {dom : Dom}

theorem removePending?_eq (rounds : Nat) (pending : List Handle)
    (hnodup : (walk dom.children rounds pending).Nodup)
    (hend : (walk dom.children rounds pending).length < rounds)
    (hle : ∀ x ∈ walk dom.children rounds pending, x ≤ dom.highWater) :
    dom.removePending? rounds pending = some (dom.removePending rounds pending) := by
  induction rounds generalizing dom pending with
  | zero => exact absurd hend (Nat.not_lt_zero _)
  | succ rounds ih =>
    rw [removePending?, removePending]
    rw [walk] at hnodup hend hle
    cases hlast : pending.getLast? with
    | none => rfl
    | some current =>
      simp only [hlast, List.nodup_cons, List.length_cons, List.mem_cons, forall_eq_or_imp]
        at hnodup hend hle
      have hwalk : walk (dom.takeNode current).children rounds
          (pending.dropLast ++ dom.children current) =
          walk dom.children rounds (pending.dropLast ++ dom.children current) := by
        apply walk_congr
        intro x hx
        rw [children_takeNode, Function.update_of_ne]
        rintro rfl
        exact hnodup.1 hx
      have ih := @ih (dom.takeNode current) (pending.dropLast ++ dom.children current)
      rw [hwalk] at ih
      simp only [if_neg (Nat.not_lt.2 hle.1)]
      exact ih hnodup.2 (by omega) hle.2

/-- An admitted operation does not panic and does what `apply_validated` is for. -/
theorem applyOp?_eq (h : dom.skeleton.Tree) {op : Op} (hop : dom.skeleton.Admits op) :
    dom.applyOp? op = some (dom.applyOp op, dom.skeleton.mints op) := by
  have hisNone : ∀ {k : Handle}, dom.skeleton.tag k ≠ none → (dom.nodes k).isNone = false := by
    intro k hk
    obtain ⟨node, hnode⟩ := Option.ne_none_iff_exists'.1 (skeleton_tag_ne_none.1 hk)
    rw [hnode]
    rfl
  cases op with
  | ins parent after node =>
    have hne : parent ≠ dom.highWater + 1 := by
      rintro rfl
      exact hop.1 h.tag_fresh
    simp only [applyOp?, Function.update_of_ne hne, hisNone hop.1]
    rfl
  | rm handle =>
    obtain ⟨old, hold⟩ := h.exists_parent hop.1 (Tree.root_ne hop.2)
    have hchildren : (dom.modifyNode old fun node =>
        { node with kids := node.kids.filter (· ≠ handle) }).children = dom.skeleton.detached handle :=
      congrArg Skeleton.children (skeleton_detach h hold)
    have hspec := h.subtree_spec hop.1
    have hlength := h.length_subtree hop.1
    replace hold : dom.parent handle = some old := hold
    simp only [applyOp?, removeSubtree?, applyOp, removeSubtree, hold]
    rw [removePending?_eq]
    · rfl
    · rw [hchildren]
      exact hspec.1
    · rw [hchildren]
      exact Nat.lt_succ_of_le hlength.1
    · rw [hchildren]
      exact hlength.2
  | set handle prop value =>
    simp only [applyOp?, hisNone hop]
    rfl
  | mv handle parent after =>
    obtain ⟨old, hold⟩ := h.exists_parent hop.1 (Tree.root_ne hop.2.2.1)
    have holdLive := h.parent_live hold
    have hbound := h.bounded hop.1
    replace hold : dom.parent handle = some old := hold
    have hparent : ((dom.modifyNode old fun node =>
        { node with kids := node.kids.filter (· ≠ handle) }).nodes parent).isNone = false := by
      have hlive := hisNone hop.2.1
      by_cases heq : parent = old
      · subst heq
        simpa only [modifyNode, Function.update_self, Option.isNone_map] using hlive
      · simpa only [modifyNode, Function.update_of_ne heq] using hlive
    have hin : decide (dom.highWater < handle) = false := decide_eq_false (Nat.not_lt.2 hbound)
    simp only [applyOp?, moveNode?, applyOp, moveNode, hold, hisNone holdLive, hparent]
    rw [if_neg Bool.false_ne_true, show (dom.modifyNode old _).highWater = dom.highWater from rfl, hin]
    rfl

theorem applyOps?_eq (h : dom.skeleton.Tree) {ops : List Op} (hops : dom.skeleton.AdmitsAll ops) :
    dom.applyOps? ops = some (dom.applyOps ops, dom.skeleton.mintsAll ops) := by
  induction ops generalizing dom with
  | nil => rfl
  | cons op ops ih =>
    have hop := skeleton_applyOp h hops.1
    have ih := @ih (dom.applyOp op) (hop ▸ h.apply hops.1) (hop ▸ hops.2)
    rw [hop] at ih
    rw [applyOps?, applyOp?_eq h hops.1]
    simp only [ih]
    rfl

end Dom

namespace Validation

variable {v : Validation}

theorem touch?_eq {h : Handle} (hlive : v.post.tag h ≠ none) (f : ScratchNode → ScratchNode) :
    v.touch? h f = some (v.touch h f) := by
  obtain ⟨t, ht⟩ := Option.ne_none_iff_exists'.1 hlive
  rw [touch?, touch, touched_of_live ht]
  rfl

theorem removePending?_eq (rounds : Nat) (pending : List Handle)
    (hend : (walk v.children rounds pending).length < rounds) :
    v.removePending? rounds pending = some (v.removePending rounds pending) := by
  induction rounds generalizing v pending with
  | zero => exact absurd hend (Nat.not_lt_zero _)
  | succ rounds ih =>
    rw [removePending?, removePending]
    rw [walk] at hend
    cases hlast : pending.getLast? with
    | none => rfl
    | some current =>
      simp only [hlast, List.length_cons] at hend
      exact ih _ (Nat.lt_of_succ_lt_succ hend)

theorem Sound.remove?_eq (hv : v.Sound) {handle : Handle} (hlive : v.post.tag handle ≠ none)
    (hroot : handle ≠ Dom.root) : v.remove? handle = some (v.remove handle) := by
  obtain ⟨old, hold⟩ := hv.tree.exists_parent hlive hroot
  have hwalk := hv.walk_detach hlive hold
  have hdetach : v.detach? old handle = some (v.detach old handle) :=
    touch?_eq (hv.tree.parent_live hold) _
  rw [post_parent] at hold
  simp only [remove?, remove, hold, hdetach]
  refine removePending?_eq _ _ ?_
  have hlength := (hv.tree.length_subtree hlive).1
  replace hwalk : walk (v.detach old handle).children ((v.detach old handle).highWater + 1) [handle] =
      v.post.subtree handle := hwalk
  rw [hwalk]
  exact Nat.lt_succ_of_le hlength

theorem isAncestor?_eq (hacyclic : Acyclic v.post.parent) (all : List Handle) {ancestor node : Handle}
    (hall : ∀ x, Below v.post.parent node x → x ∈ all) {rounds : Nat} (hrounds : all.length ≤ rounds) :
    v.isAncestor? ancestor rounds node = some (v.isAncestorFrom ancestor rounds node) := by
  induction rounds generalizing node all with
  | zero =>
    have hnode := hall node .refl
    rw [List.eq_nil_of_length_eq_zero (Nat.le_zero.1 hrounds)] at hnode
    cases hnode
  | succ rounds ih =>
    rw [isAncestor?, isAncestorFrom]
    split
    · rfl
    · cases hparent : v.parent node with
      | none => rfl
      | some p =>
        have hparent : v.post.parent node = some p := hparent
        -- What is above the parent does not have the node in it.
        refine ih (all.erase node) (fun x hx => ?_) ?_
        · have hne : x ≠ node := by
            rintro rfl
            exact hacyclic _ _ hparent hx
          exact (List.mem_erase_of_ne hne).2 (hall x (.head hparent hx))
        · rw [List.length_erase_of_mem (hall node .refl)]
          omega

theorem Sound.isAncestor?_eq (hv : v.Sound) {ancestor node : Handle}
    (hnode : v.post.tag node ≠ none) :
    v.isAncestor? ancestor (v.highWater + 1) node = some (v.isAncestor ancestor node) := by
  refine Validation.isAncestor?_eq hv.tree.acyclic (List.range (v.highWater + 1)) (fun x hx => ?_)
    List.length_range.le
  refine hv.tree.mem_range ?_
  induction hx with
  | refl => exact hnode
  | tail _ hxy _ => exact hv.tree.parent_live hxy

theorem Sound.move?_eq (hv : v.Sound) {handle parent : Handle} (hlive : v.post.tag handle ≠ none)
    (hparent : v.post.tag parent ≠ none) (hroot : handle ≠ Dom.root) (after : Option Handle) :
    v.move? handle parent after = some (v.next (.mv handle parent after)) := by
  obtain ⟨old, hold⟩ := hv.tree.exists_parent hlive hroot
  have hdetach : v.detach? old handle = some (v.detach old handle) :=
    touch?_eq (hv.tree.parent_live hold) _
  have hpost := hv.detach_post hold
  have hparent' : (v.detach old handle).post.tag parent ≠ none := by rwa [hpost]
  have hinsert : (v.detach old handle).insertChild? parent after handle =
      some ((v.detach old handle).insertChild parent after handle) := touch?_eq hparent' _
  have hhandle : ((v.detach old handle).insertChild parent after handle).post.tag handle ≠ none := by
    rw [insertChild, touch_kids_post hparent' fun kids => insertAfter kids after handle, hpost]
    exact hlive
  rw [post_parent] at hold
  simp only [move?, hold, hdetach, hinsert]
  rw [touch?_eq hhandle, Validation.next, hold]

/-- Validation does not panic. -/
theorem Sound.step?_eq (hv : v.Sound) (i : Nat) (op : Op) : v.step? i op = some (v.step i op) := by
  have hlive : ∀ {k : Handle}, v.require k i = .ok () → v.post.tag k ≠ none := require_eq_ok.1
  cases op with
  | ins parent after node =>
    rw [step?, step]
    cases hrequire : v.require parent i with
    | error e => rfl
    | ok =>
      cases hanchor : v.anchor parent after i with
      | error e => rfl
      | ok =>
        cases htopology : topology parent (v.highWater + 1) node.tag i with
        | error e =>
          simp only [htopology]
          rfl
        | ok =>
          have hparent := hlive hrequire
          have hne : parent ≠ v.highWater + 1 := by
            rintro rfl
            exact hparent hv.tree.tag_fresh
          simp only [htopology]
          rw [insertChild?, touch?_eq]
          · rfl
          · rw [hv.mint_post]
            simpa only [Function.update_of_ne hne] using hparent
  | rm handle =>
    rw [step?, step]
    cases hrequire : v.require handle i with
    | error e => rfl
    | ok =>
      obtain ⟨tag, htag⟩ := Option.ne_none_iff_exists'.1 (hlive hrequire)
      replace htag : v.tag handle = some tag := htag
      cases hfixed : v.isFixedRoot handle with
      | true =>
        simp only [htag]
        rfl
      | false =>
        have hroot : handle ≠ Dom.root := Tree.root_ne (by rw [isFixedRoot_post, hfixed])
        simp only [hv.remove?_eq (hlive hrequire) hroot]
        rfl
  | set handle prop value =>
    rw [step?, step]
    cases v.require handle i <;> rfl
  | mv handle parent after =>
    rw [step?, step]
    cases hrequire : v.require handle i with
    | error e => rfl
    | ok =>
      cases hrequire' : v.require parent i with
      | error e => rfl
      | ok =>
        obtain ⟨tag, htag⟩ := Option.ne_none_iff_exists'.1 (hlive hrequire)
        replace htag : v.tag handle = some tag := htag
        simp only [htag, Option.getD_some]
        cases hfixed : v.isFixedRoot handle with
        | true => rfl
        | false =>
          have hroot : handle ≠ Dom.root := Tree.root_ne (by rw [isFixedRoot_post, hfixed])
          cases htopology : topology parent handle tag i with
          | error e => rfl
          | ok =>
            simp only [hv.isAncestor?_eq (hlive hrequire')]
            cases hancestor : v.isAncestor handle parent with
            | true => rfl
            | false =>
              cases hanchor : v.anchor parent after i with
              | error e => rfl
              | ok =>
                by_cases hself : after = some handle
                · simp only [hself]
                  rfl
                · simp only [if_neg hself,
                    hv.move?_eq (hlive hrequire) (hlive hrequire') hroot after]
                  rfl

theorem Sound.validateFrom?_eq (hv : v.Sound) (i : Nat) (ops : List Op) :
    v.validateFrom? i ops = some (v.validateFrom i ops) := by
  induction ops generalizing v i with
  | nil => rfl
  | cons op ops ih =>
    rw [validateFrom?, validateFrom, hv.step?_eq]
    cases hstep : v.step i op with
    | error e => rfl
    | ok r =>
      obtain ⟨hop, rfl⟩ := hv.step_eq_ok.1 hstep
      simp only [ih (hv.next hop), bind, Except.bind]
      cases (v.next op).validateFrom (i + 1) ops <;> rfl

end Validation

/-! ## Transactions -/

/-- The receiving end of a subscription: a channel of bounded capacity, open or hung up. -/
structure Subscriber where
  capacity : Nat
  queue : List Event
  connected : Bool

/-- `publish`: a subscriber that cannot take the event is dropped. -/
def publish (event : Event) (subscribers : List Subscriber) : List Subscriber :=
  subscribers.filterMap fun s =>
    if s.connected && s.queue.length < s.capacity then
      some { s with queue := s.queue ++ [event] }
    else none

namespace Dom

/-- `apply_with_prior`, on the tree and its subscribers. There is no result where it panics. -/
def transact? (dom : Dom) (subscribers : List Subscriber) (txn : Txn) (prior : Option EntryId) :
    Option (Except DomError (List Handle) × Dom × List Subscriber) :=
  match ({ dom := dom.skeleton : Validation }).validateFrom? 0 txn.ops with
  | none => none
  | some (.error e) => some (.error e, dom, subscribers)
  | some (.ok minted) =>
    (dom.applyOps? txn.ops).map fun applied =>
      (.ok minted, applied.1, publish (.patch txn.cause prior txn.label txn.ops) subscribers)

/-- The operations applied one by one, each as a transaction of its own, and the handles that they
return. -/
def applyEach (dom : Dom) (cause : EntryId) (label : Option String) :
    List Op → Except DomError (Dom × List Handle)
  | [] => .ok (dom, [])
  | op :: ops => do
    let (dom, minted) ← dom.apply { cause, label, ops := [op] }
    let (dom, rest) ← dom.applyEach cause label ops
    return (dom, minted ++ rest)

variable {dom : Dom}

theorem applyEach_eq_ok (h : dom.skeleton.Tree) {cause : EntryId} {label : Option String}
    {ops : List Op} {dom' : Dom} {minted : List Handle} :
    dom.applyEach cause label ops = .ok (dom', minted) ↔ dom.skeleton.AdmitsAll ops ∧
      dom' = dom.applyOps ops ∧ minted = dom.skeleton.mintsAll ops := by
  induction ops generalizing dom dom' minted with
  | nil =>
    simp only [applyEach, AdmitsAll, mintsAll, applyOps, List.foldl_nil, true_and, Except.ok.injEq,
      Prod.mk.injEq]
    exact and_congr eq_comm eq_comm
  | cons op ops ih =>
    rw [applyEach, AdmitsAll]
    constructor
    · intro hrun
      obtain ⟨⟨dom₁, minted₁⟩, hop, hrun⟩ := Except.bind_eq_ok.1 hrun
      obtain ⟨hadmits, rfl, rfl⟩ := (apply_eq_ok h).1 hop
      have hskeleton := skeleton_applyOp h hadmits.1
      obtain ⟨⟨dom₂, minted₂⟩, hops, hrun⟩ := Except.bind_eq_ok.1 hrun
      have htree : (dom.applyOp op).skeleton.Tree := hskeleton ▸ h.apply hadmits.1
      obtain ⟨hadmits', rfl, rfl⟩ := (ih htree).1 hops
      cases Except.pure_eq_ok.1 hrun
      rw [hskeleton] at hadmits'
      refine ⟨⟨hadmits.1, hadmits'⟩, rfl, ?_⟩
      simp only [mintsAll, List.append_nil, hskeleton]
    · rintro ⟨⟨hop, hops⟩, rfl, rfl⟩
      have hskeleton := skeleton_applyOp h hop
      have hfirst : dom.apply { cause, label, ops := [op] } =
          .ok (dom.applyOp op, (dom.skeleton.mints op).toList) :=
        (apply_eq_ok h).2 ⟨⟨hop, trivial⟩, rfl, by simp [mintsAll]⟩
      have htree : (dom.applyOp op).skeleton.Tree := hskeleton ▸ h.apply hop
      have hrest := (ih htree).2 ⟨hskeleton ▸ hops, rfl, rfl⟩
      rw [hfirst]
      simp only [bind, Except.bind, hrest, mintsAll, hskeleton]
      rfl

/-- A turn is inserted, a node under it, the node is moved and the turn removed with it. -/
def busyTxn : Txn where
  cause := sampleCause
  label := none
  ops := [.ins body none { tag := .known .turn }, .ins body none { tag := .known .turn },
    .ins 5 none { tag := .known .user }, .mv 7 6 none, .rm 6]

end Dom

end OhMyPi
