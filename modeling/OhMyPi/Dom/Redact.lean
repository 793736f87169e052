import OhMyPi.Dom.Replica

/-! Redaction of snapshots and events (`dom/src/redact.rs`). Values are blanked and nothing is
dropped, so that a redacted event addresses the same nodes. -/

namespace OhMyPi

/-- Decides which property values and text contents are blanked. -/
structure PropPolicy where
  redacts : Tag → PropKey → Bool
  redactsContent : Tag → Bool

namespace PropPolicy

variable (policy : PropPolicy)

/-- A value of a `tag` node under `key`, blanked when the policy says so. -/
def blankValue (tag : Tag) (key : PropKey) (value : Value) : Value :=
  if policy.redacts tag key then .str "" else value

def blankProps (tag : Tag) (props : List (PropKey × Value)) : List (PropKey × Value) :=
  props.map fun p => (p.1, policy.blankValue tag p.1 p.2)

def blankContent (tag : Tag) (content : Option String) : Option String :=
  content.map fun text => if policy.redactsContent tag then "" else text

/-- `blank`, on a node. -/
def blankNode (node : Node) : Node :=
  { node with
    props := policy.blankProps node.tag node.props
    content := policy.blankContent node.tag node.content }

/-- `blank_spec`. -/
def blankSpec (spec : NodeSpec) : NodeSpec :=
  { spec with
    props := policy.blankProps spec.tag spec.props
    content := policy.blankContent spec.tag spec.content }

/-- `stream_target_redacted`: an unknown node counts as redacted. -/
def streamTargetRedacted (nodes : Handle → Option Node) (node : Handle) (prop : PropKey) : Bool :=
  match nodes node with
  | none => true
  | some node => policy.redacts node.tag prop

/-- A stream without its text, when its target is redacted. -/
def blankStream (nodes : Handle → Option Node) (stream : OpenStream) : OpenStream :=
  if policy.streamTargetRedacted nodes stream.node stream.prop then { stream with text := "" }
  else stream

end PropPolicy

theorem PropPolicy.blankStream_node (policy : PropPolicy) (nodes : Handle → Option Node)
    (stream : OpenStream) : (policy.blankStream nodes stream).node = stream.node := by
  rw [blankStream]
  split
  · rfl
  · rfl

/-- `Snapshot::redact`. -/
def Snapshot.redact (s : Snapshot) (policy : PropPolicy) : Snapshot where
  highWater := s.highWater
  nextSid := s.nextSid
  nodes := materializeAll (fun h => (s.nodes h).map policy.blankNode)
    (s.streams.map fun p => (p.1, policy.blankStream s.nodes p.2))
  parents := s.parents
  streams := s.streams.map fun p => (p.1, policy.blankStream s.nodes p.2)
  bound p hp := by
    obtain ⟨q, hq, rfl⟩ := List.mem_map.1 hp
    rw [← Option.isSome_iff_ne_none, materializeAll_isSome, Option.isSome_map,
      Option.isSome_iff_ne_none, PropPolicy.blankStream_node]
    exact s.bound q hq

/-- `tag_of`. -/
def tagOf (minted : List (Handle × Tag)) (handle : Handle) : Option Tag :=
  (minted.find? (·.1 = handle)).map Prod.snd

/-- The tag that a `Set` on `handle` is redacted for. -/
def resolveTag (base : Snapshot) (minted : List (Handle × Tag)) (handle : Handle) : Option Tag :=
  ((base.nodes handle).map Node.tag).or (tagOf minted handle)

/-- `redact_ops`, with the handles minted so far. -/
def redactOps (policy : PropPolicy) (base : Snapshot) (minted : List (Handle × Tag))
    (highWater : Nat) : List Op → List Op
  | [] => []
  | .ins parent after node :: ops =>
    .ins parent after (policy.blankSpec node) ::
      redactOps policy base (minted ++ [(highWater + 1, node.tag)]) (highWater + 1) ops
  | .set h prop value :: ops =>
    let value := match resolveTag base minted h with
      | some tag => policy.blankValue tag prop value
      | none => .str ""
    .set h prop value :: redactOps policy base minted highWater ops
  | .rm h :: ops => .rm h :: redactOps policy base minted highWater ops
  | .mv h parent after :: ops => .mv h parent after :: redactOps policy base minted highWater ops

/-- `stream_redacted`: the event's own target, or that of the open stream. -/
def streamRedacted (policy : PropPolicy) (base : Snapshot) (sid : Sid) (node : Option Handle)
    (prop : Option PropKey) : Bool :=
  match node, prop with
  | some node, some prop => policy.streamTargetRedacted base.nodes node prop
  | _, _ =>
    match base.streams.find? (·.1 = sid) with
    | none => true
    | some p => policy.streamTargetRedacted base.nodes p.2.node p.2.prop

/-- `redact_event`, against the state the event applies to. -/
def redactEvent (policy : PropPolicy) (base : Snapshot) : Event → Event
  | .patch cause prior label ops =>
    .patch cause prior label (redactOps policy base [] base.highWater ops)
  | .reset snapshot => .reset (snapshot.redact policy)
  | .stream cause sid op node prop text =>
    .stream cause sid op node prop
      (text.map fun text => if streamRedacted policy base sid node prop then "" else text)

/-- An operation with blanked values, for tags found by `resolve`. -/
def Op.blank (policy : PropPolicy) (resolve : Handle → Option Tag) : Op → Op
  | .ins parent after node => .ins parent after (policy.blankSpec node)
  | .rm h => .rm h
  | .set h prop value => .set h prop (match resolve h with
      | some tag => policy.blankValue tag prop value
      | none => .str "")
  | .mv h parent after => .mv h parent after

/-- The handles minted so far, after one more operation, and the mark. -/
def mintedBy (minted : List (Handle × Tag)) (highWater : Nat) : Op → List (Handle × Tag) × Nat
  | .ins _ _ node => (minted ++ [(highWater + 1, node.tag)], highWater + 1)
  | _ => (minted, highWater)

theorem redactOps_cons (policy : PropPolicy) (base : Snapshot) (minted : List (Handle × Tag))
    (highWater : Nat) (op : Op) (ops : List Op) :
    redactOps policy base minted highWater (op :: ops) =
      op.blank policy (resolveTag base minted) ::
        redactOps policy base (mintedBy minted highWater op).1 (mintedBy minted highWater op).2 ops := by
  cases op with
  | ins parent after node => rfl
  | rm h => rfl
  | set h prop value => rfl
  | mv h parent after => rfl

/-! ## Blanked trees -/

namespace PropPolicy

variable (policy : PropPolicy)

theorem blankNode_fromSpec (spec : NodeSpec) :
    policy.blankNode (.fromSpec spec) = .fromSpec (policy.blankSpec spec) := rfl

@[simp] theorem blankProps_cons (tag : Tag) (p : PropKey × Value) (props : List (PropKey × Value)) :
    policy.blankProps tag (p :: props) =
      (p.1, policy.blankValue tag p.1 p.2) :: policy.blankProps tag props := rfl

theorem blankProps_assign (tag : Tag) (key : PropKey) (value : Value)
    (props : List (PropKey × Value)) :
    policy.blankProps tag (KeyedList.assign key value props) =
      KeyedList.assign key (policy.blankValue tag key value) (policy.blankProps tag props) := by
  induction props with
  | nil => rfl
  | cons p props ih =>
    rw [KeyedList.assign, blankProps_cons, KeyedList.assign]
    split
    · next heq => rw [blankProps_cons, heq]
    · rw [blankProps_cons, ih]

/-- Blanking and writing, in either order. -/
theorem blankNode_setProp (node : Node) (key : PropKey) (value : Value) :
    policy.blankNode (node.setProp key value) =
      (policy.blankNode node).setProp key (policy.blankValue node.tag key value) := by
  rw [blankNode, Node.setProp, blankProps_assign]
  rfl

theorem prop_blankNode (node : Node) (key : PropKey) :
    (policy.blankNode node).prop key = (node.prop key).map (policy.blankValue node.tag key) := by
  have hfirst : ∀ props : List (PropKey × Value),
      KeyedList.first key (policy.blankProps node.tag props) =
        (KeyedList.first key props).map (policy.blankValue node.tag key) := by
    intro props
    induction props with
    | nil => rfl
    | cons p props ih =>
      rw [blankProps_cons, KeyedList.first, KeyedList.first]
      split
      · next heq => rw [heq, Option.map_some]
      · exact ih
  exact hfirst node.props

theorem streamTargetRedacted_eq (nodes : Handle → Option Node) (node : Handle) (prop : PropKey) :
    policy.streamTargetRedacted nodes node prop =
      (((nodes node).map Node.tag).map (policy.redacts · prop)).getD true := by
  rw [streamTargetRedacted]
  cases nodes node with
  | none => rfl
  | some n => rfl

/-- A stream without its text and with its byte count seen through `count`, when its target is
redacted. -/
def hideStream (count : Nat → Nat) (nodes : Handle → Option Node) (stream : OpenStream) :
    OpenStream :=
  if policy.streamTargetRedacted nodes stream.node stream.prop then
    { stream with text := "", appendedBytes := count stream.appendedBytes }
  else stream

variable {policy} {count : Nat → Nat}

@[simp] theorem hideStream_node (nodes : Handle → Option Node) (stream : OpenStream) :
    (policy.hideStream count nodes stream).node = stream.node := by
  rw [hideStream]
  split
  · rfl
  · rfl

@[simp] theorem hideStream_prop (nodes : Handle → Option Node) (stream : OpenStream) :
    (policy.hideStream count nodes stream).prop = stream.prop := by
  rw [hideStream]
  split
  · rfl
  · rfl

theorem hideStream_congr {nodes nodes' : Handle → Option Node} {stream : OpenStream}
    (h : (nodes' stream.node).map Node.tag = (nodes stream.node).map Node.tag) :
    policy.hideStream count nodes' stream = policy.hideStream count nodes stream := by
  rw [hideStream, hideStream, streamTargetRedacted_eq, h, ← streamTargetRedacted_eq]

end PropPolicy

namespace Dom

/-- The tree with every value blanked that the policy hides, also in the streams. -/
def hide (policy : PropPolicy) (count : Nat → Nat) (dom : Dom) : Dom where
  nodes h := (dom.nodes h).map policy.blankNode
  parents := dom.parents
  highWater := dom.highWater
  streams := dom.streams.map (policy.hideStream count dom.nodes)
  nextSid := dom.nextSid

/-- No node is beyond the allocator's mark; the source has no slots there. -/
def Slotted (dom : Dom) : Prop := ∀ h, dom.nodes h ≠ none → h ≤ dom.highWater

section

variable {policy : PropPolicy} {count : Nat → Nat} {dom : Dom}

theorem hide_nodes (h : Handle) :
    (dom.hide policy count).nodes h = (dom.nodes h).map policy.blankNode := rfl

theorem hide_streams : (dom.hide policy count).streams =
    dom.streams.map (policy.hideStream count dom.nodes) := rfl

theorem children_hide : (dom.hide policy count).children = dom.children := by
  funext h
  rw [children, children, hide, Option.map_map]
  rfl

theorem skeleton_hide : (dom.hide policy count).skeleton = dom.skeleton := by
  rw [skeleton, skeleton, children_hide]
  congr 1
  funext h
  rw [hide, Option.map_map]
  rfl

theorem hide_modifyNode {h : Handle} {f g : Node → Node} (htag : ∀ n, (f n).tag = n.tag)
    (hfg : ∀ n, dom.nodes h = some n → policy.blankNode (f n) = g (policy.blankNode n)) :
    (dom.modifyNode h f).hide policy count = (dom.hide policy count).modifyNode h g := by
  rw [hide, hide, modifyNode, modifyNode]
  congr 1
  · funext k
    by_cases hk : k = h
    · subst hk
      simp only [Function.update_self]
      cases hnode : dom.nodes k with
      | none => rfl
      | some n => exact congrArg some (hfg n hnode)
    · simp only [Function.update_of_ne hk]
  · apply OrdMap.map_congr
    intro p _
    apply PropPolicy.hideStream_congr
    by_cases hk : p.2.node = h
    · simp only [hk, Function.update_self, Option.map_map]
      cases dom.nodes h with
      | none => rfl
      | some n => exact congrArg some (htag n)
    · simp only [Function.update_of_ne hk]

theorem hide_takeNode (h : Handle) :
    (dom.takeNode h).hide policy count = (dom.hide policy count).takeNode h := by
  rw [hide, hide, takeNode, takeNode]
  congr 1
  · funext k
    by_cases hk : k = h
    · subst hk
      simp only [Function.update_self]
      rfl
    · simp only [Function.update_of_ne hk]
  · rw [← OrdMap.map_filter (p := fun _ stream => decide (stream.node ≠ h))]
    · apply OrdMap.map_congr
      intro p hp
      have hne : p.2.node ≠ h := by simpa using (OrdMap.mem_filter.1 hp).2
      apply PropPolicy.hideStream_congr
      simp only [Function.update_of_ne hne]
    · intro k stream
      rw [PropPolicy.hideStream_node]

theorem hide_removePending (rounds : Nat) (pending : List Handle) :
    (dom.removePending rounds pending).hide policy count =
      (dom.hide policy count).removePending rounds pending := by
  induction rounds generalizing dom pending with
  | zero => rfl
  | succ rounds ih =>
    rw [removePending, removePending, children_hide]
    cases pending.getLast? with
    | none => rfl
    | some current => rw [ih, hide_takeNode]

theorem hide_modifyKids (h : Handle) (f : List Handle → List Handle) :
    (dom.modifyNode h fun node => { node with kids := f node.kids }).hide policy count =
      (dom.hide policy count).modifyNode h fun node => { node with kids := f node.kids } :=
  hide_modifyNode (fun _ => rfl) fun _ _ => rfl

/-- Applying a blanked operation to the blanked tree. -/
theorem hide_applyOp (hlive : dom.Live) (hslotted : dom.Slotted) {resolve : Handle → Option Tag}
    (hresolve : ∀ h n, dom.nodes h = some n → resolve h = some n.tag) (op : Op) :
    (dom.applyOp op).hide policy count =
      (dom.hide policy count).applyOp (op.blank policy resolve) := by
  cases op with
  | ins parent after node =>
    have hminted : ({ dom with
        highWater := dom.highWater + 1
        nodes := Function.update dom.nodes (dom.highWater + 1) (some (Node.fromSpec node))
        parents := Function.update dom.parents (dom.highWater + 1) (some parent) } : Dom).hide
          policy count =
        { dom.hide policy count with
          highWater := dom.highWater + 1
          nodes := Function.update (dom.hide policy count).nodes (dom.highWater + 1)
            (some (Node.fromSpec (policy.blankSpec node)))
          parents := Function.update dom.parents (dom.highWater + 1) (some parent) } := by
      rw [hide, hide]
      congr 1
      · funext k
        by_cases hk : k = dom.highWater + 1
        · subst hk
          simp only [Function.update_self, Option.map_some, PropPolicy.blankNode_fromSpec]
        · simp only [Function.update_of_ne hk]
      · apply OrdMap.map_congr
        intro p hp
        have hne : p.2.node ≠ dom.highWater + 1 := by
          intro heq
          have := hslotted _ (hlive p hp)
          rw [heq] at this
          exact absurd this (Nat.not_succ_le_self _)
        apply PropPolicy.hideStream_congr
        simp only [Function.update_of_ne hne]
    rw [applyOp, hide_modifyKids (f := fun kids => insertAfter kids after (dom.highWater + 1)),
      hminted]
    rfl
  | rm handle =>
    have hparents : (dom.hide policy count).parents = dom.parents := rfl
    change (dom.removeSubtree handle).hide policy count =
      (dom.hide policy count).removeSubtree handle
    simp only [removeSubtree, parent, hide_removePending, hparents]
    cases dom.parents handle with
    | none => rfl
    | some old =>
      simp only [hide_modifyKids (f := fun kids => kids.filter (· ≠ handle))]
      rfl
  | set handle prop value =>
    refine hide_modifyNode (f := (·.setProp prop value)) (fun _ => rfl) fun n hn => ?_
    rw [hresolve handle n hn]
    exact policy.blankNode_setProp n prop value
  | mv handle parent after =>
    have hsetParent : ∀ (d : Dom) (p : Option Handle), (d.setParent handle p).hide policy count =
        (d.hide policy count).setParent handle p := fun _ _ => rfl
    have hparents : (dom.hide policy count).parents = dom.parents := rfl
    change (dom.moveNode handle parent after).hide policy count =
      (dom.hide policy count).moveNode handle parent after
    simp only [moveNode, Dom.parent, hparents]
    rw [hsetParent, hide_modifyKids (f := fun kids => insertAfter kids after handle)]
    cases dom.parents handle with
    | none => rfl
    | some old => simp only [hide_modifyKids (f := fun kids => kids.filter (· ≠ handle))]

/-! ### Whole transactions -/

theorem Slotted.modifyNode (h : dom.Slotted) (k : Handle) (f : Node → Node) :
    (dom.modifyNode k f).Slotted := fun k' hk' => h k' (modifyNode_nodes_ne_none.1 hk')

theorem Slotted.takeNode (h : dom.Slotted) (k : Handle) : (dom.takeNode k).Slotted := by
  intro k' hk'
  simp only [Dom.takeNode, Function.update_apply] at hk'
  split at hk'
  · exact absurd rfl hk'
  · exact h k' hk'

theorem Slotted.removePending (h : dom.Slotted) (rounds : Nat) (pending : List Handle) :
    (dom.removePending rounds pending).Slotted := by
  induction rounds generalizing dom pending with
  | zero => exact h
  | succ rounds ih =>
    rw [Dom.removePending]
    split
    · exact h
    · exact ih (h.takeNode _) _

theorem Slotted.applyOp (h : dom.Slotted) (op : Op) : (dom.applyOp op).Slotted := by
  cases op with
  | ins parent after node =>
    apply Slotted.modifyNode
    intro k hk
    simp only [Function.update_apply] at hk
    split at hk
    · next heq => exact heq ▸ le_rfl
    · exact (h k hk).trans (Nat.le_succ _)
  | rm handle =>
    rw [Dom.applyOp, Dom.removeSubtree]
    apply Slotted.removePending
    split
    · exact h.modifyNode _ _
    · exact h
  | set handle prop value => exact h.modifyNode _ _
  | mv handle parent after =>
    rw [Dom.applyOp, Dom.moveNode]
    have hdetached : ∀ {d : Dom}, d.Slotted → ((d.modifyNode parent fun node =>
        { node with kids := insertAfter node.kids after handle }).setParent handle
          (some parent)).Slotted := fun h' => h'.modifyNode _ _
    apply hdetached
    split
    · exact h.modifyNode _ _
    · exact h

theorem Slotted.applyOps (h : dom.Slotted) (ops : List Op) : (dom.applyOps ops).Slotted := by
  induction ops generalizing dom with
  | nil => exact h
  | cons op ops ih => exact ih (h.applyOp op)

/-- Every node of `dom'` was in `dom`, with its tag. -/
def TagsFrom (dom dom' : Dom) : Prop :=
  ∀ h n, dom'.nodes h = some n → ∃ m, dom.nodes h = some m ∧ m.tag = n.tag

theorem TagsFrom.refl (dom : Dom) : dom.TagsFrom dom := fun _ n hn => ⟨n, hn, rfl⟩

theorem TagsFrom.trans {dom' dom'' : Dom} (h : dom.TagsFrom dom') (h' : dom'.TagsFrom dom'') :
    dom.TagsFrom dom'' := by
  intro k n hn
  obtain ⟨m, hm, htag⟩ := h' k n hn
  obtain ⟨l, hl, htag'⟩ := h k m hm
  exact ⟨l, hl, htag'.trans htag⟩

theorem TagsFrom.modifyNode (h : Handle) {f : Node → Node} (hf : ∀ n, (f n).tag = n.tag) :
    dom.TagsFrom (dom.modifyNode h f) := by
  intro k n hn
  simp only [Dom.modifyNode, Function.update_apply] at hn
  split at hn
  · next heq =>
    obtain ⟨m, hm, rfl⟩ := Option.map_eq_some_iff.1 hn
    exact ⟨m, heq ▸ hm, (hf m).symm⟩
  · exact ⟨n, hn, rfl⟩

theorem TagsFrom.modifyKids (h : Handle) (f : List Handle → List Handle) :
    dom.TagsFrom (dom.modifyNode h fun node => { node with kids := f node.kids }) :=
  TagsFrom.modifyNode h (f := fun node => { node with kids := f node.kids }) fun _ => rfl

theorem TagsFrom.removePending (rounds : Nat) (pending : List Handle) :
    dom.TagsFrom (dom.removePending rounds pending) := by
  induction rounds generalizing dom pending with
  | zero => exact .refl dom
  | succ rounds ih =>
    rw [Dom.removePending]
    split
    · exact .refl dom
    · refine TagsFrom.trans ?_ (ih _)
      intro k n hn
      simp only [Dom.takeNode, Function.update_apply] at hn
      split at hn
      · cases hn
      · exact ⟨n, hn, rfl⟩

/-- An operation adds at most the node it inserts. -/
theorem applyOp_nodes {op : Op} {h : Handle} {n : Node} (hn : (dom.applyOp op).nodes h = some n) :
    (∃ m, dom.nodes h = some m ∧ m.tag = n.tag) ∨
      ∃ parent after node, op = .ins parent after node ∧ h = dom.highWater + 1 ∧
        n.tag = node.tag := by
  cases op with
  | ins parent after node =>
    obtain ⟨m, hm, htag⟩ :=
      TagsFrom.modifyKids parent (fun kids => insertAfter kids after (dom.highWater + 1)) h n hn
    simp only [Function.update_apply] at hm
    split at hm
    · next heq =>
      cases hm
      exact .inr ⟨parent, after, node, rfl, heq, htag.symm⟩
    · exact .inl ⟨m, hm, htag⟩
  | rm handle =>
    left
    rw [Dom.applyOp, Dom.removeSubtree] at hn
    refine TagsFrom.trans ?_ (TagsFrom.removePending _ _) h n hn
    split
    · exact TagsFrom.modifyKids _ fun kids => kids.filter (· ≠ handle)
    · exact .refl dom
  | set handle prop value =>
    exact .inl (TagsFrom.modifyNode (f := (·.setProp prop value)) handle (fun _ => rfl) h n hn)
  | mv handle parent after =>
    left
    have hset : ∀ d : Dom, d.TagsFrom (d.setParent handle (some parent)) :=
      fun d k m hm => ⟨m, hm, rfl⟩
    rw [Dom.applyOp, Dom.moveNode] at hn
    refine TagsFrom.trans ?_ ((TagsFrom.modifyKids parent fun kids =>
      insertAfter kids after handle).trans (hset _)) h n hn
    split
    · exact TagsFrom.modifyKids _ fun kids => kids.filter (· ≠ handle)
    · exact .refl dom

/-- The base and the handles minted so far name the tag of every node. -/
structure Resolves (base : Snapshot) (minted : List (Handle × Tag)) (dom : Dom) : Prop where
  base_le : ∀ h, base.nodes h ≠ none → h ≤ dom.highWater
  minted_le : ∀ p ∈ minted, p.1 ≤ dom.highWater
  tag : ∀ h n, dom.nodes h = some n → resolveTag base minted h = some n.tag

variable {base : Snapshot} {minted : List (Handle × Tag)}

theorem applyOp_highWater (minted : List (Handle × Tag)) (op : Op) :
    (dom.applyOp op).highWater = (mintedBy minted dom.highWater op).2 := by
  have hremove : ∀ (rounds : Nat) (pending : List Handle) (d : Dom),
      (d.removePending rounds pending).highWater = d.highWater := by
    intro rounds
    induction rounds with
    | zero => exact fun _ _ => rfl
    | succ rounds ih =>
      intro pending d
      rw [Dom.removePending]
      split
      · rfl
      · rw [ih]
        rfl
  cases op with
  | ins parent after node => rfl
  | rm handle =>
    rw [Dom.applyOp, Dom.removeSubtree, hremove]
    split
    · rfl
    · rfl
  | set handle prop value => rfl
  | mv handle parent after =>
    rw [Dom.applyOp, Dom.moveNode]
    split
    · rfl
    · rfl

theorem Resolves.applyOp (h : Resolves base minted dom) (op : Op) :
    Resolves base (mintedBy minted dom.highWater op).1 (dom.applyOp op) := by
  have hle : dom.highWater ≤ (dom.applyOp op).highWater := by
    rw [applyOp_highWater minted]
    cases op with
    | ins => exact Nat.le_succ _
    | rm => exact le_rfl
    | set => exact le_rfl
    | mv => exact le_rfl
  have hkept : ∀ k tag, resolveTag base minted k = some tag →
      resolveTag base (mintedBy minted dom.highWater op).1 k = some tag := by
    intro k tag hk
    cases op with
    | ins parent after node =>
      rw [resolveTag] at hk ⊢
      cases hbase : (base.nodes k).map Node.tag with
      | some tag' =>
        rw [hbase] at hk
        exact hk
      | none =>
        rw [hbase, Option.none_or, tagOf] at hk
        obtain ⟨p, hp, rfl⟩ := Option.map_eq_some_iff.1 hk
        rw [Option.none_or, tagOf, mintedBy, List.find?_append, hp]
        rfl
    | rm => exact hk
    | set => exact hk
    | mv => exact hk
  refine ⟨fun k hk => (h.base_le k hk).trans hle, ?_, ?_⟩
  · intro p hp
    cases op with
    | ins parent after node =>
      rcases List.mem_append.1 hp with hp | hp
      · exact (h.minted_le p hp).trans hle
      · rw [List.mem_singleton.1 hp]
        exact le_rfl
    | rm => exact (h.minted_le p hp).trans hle
    | set => exact (h.minted_le p hp).trans hle
    | mv => exact (h.minted_le p hp).trans hle
  · intro k n hn
    rcases applyOp_nodes hn with ⟨m, hm, htag⟩ | ⟨parent, after, node, rfl, rfl, htag⟩
    · rw [← htag]
      exact hkept k m.tag (h.tag k m hm)
    · have hbase : base.nodes (dom.highWater + 1) = none := by
        by_contra hne
        exact absurd (h.base_le _ hne) (Nat.not_succ_le_self _)
      have hfind : minted.find? (·.1 = dom.highWater + 1) = none := by
        rw [List.find?_eq_none]
        intro p hp heq
        have := h.minted_le p hp
        rw [of_decide_eq_true heq] at this
        exact absurd this (Nat.not_succ_le_self _)
      rw [resolveTag, hbase, tagOf, mintedBy, List.find?_append, hfind, htag]
      simp

/-- Applying a redacted patch to the blanked tree. -/
theorem hide_applyOps (hlive : dom.Live) (hslotted : dom.Slotted) (h : Resolves base minted dom)
    (ops : List Op) : (dom.applyOps ops).hide policy count =
      (dom.hide policy count).applyOps (redactOps policy base minted dom.highWater ops) := by
  induction ops generalizing dom minted with
  | nil => rfl
  | cons op ops ih =>
    rw [redactOps_cons, ← applyOp_highWater minted]
    have hrest := ih (hlive.applyOp op) (hslotted.applyOp op) (h.applyOp op)
    rw [hide_applyOp hlive hslotted h.tag] at hrest
    exact hrest

theorem validateFrom_redactOps (v : Validation) (i : Nat) (highWater : Nat) (ops : List Op) :
    v.validateFrom i (redactOps policy base minted highWater ops) = v.validateFrom i ops := by
  induction ops generalizing v i minted highWater with
  | nil => rfl
  | cons op ops ih =>
    have hstep : ∀ resolve, v.step i (op.blank policy resolve) = v.step i op := by
      intro resolve
      cases op with
      | ins => rfl
      | rm => rfl
      | set => rfl
      | mv => rfl
    rw [redactOps_cons, Validation.validateFrom, Validation.validateFrom, hstep]
    simp only [ih]

/-- Validation does not see values. -/
theorem validateOps_redactOps (highWater : Nat) (ops : List Op) :
    (dom.hide policy count).validateOps (redactOps policy base minted highWater ops) =
      dom.validateOps ops := by
  rw [validateOps, validateOps, skeleton_hide, validateFrom_redactOps]

/-- A snapshot names the tags of its tree. -/
theorem Resolves.snapshot (hlive : dom.Live) (hslotted : dom.Slotted) :
    Resolves (dom.snapshot hlive) [] dom where
  base_le h hh := by
    have hsome : (materializeAll dom.nodes dom.streams.entries h).isSome = (dom.nodes h).isSome :=
      materializeAll_isSome
    apply hslotted
    rwa [← Option.isSome_iff_ne_none, ← hsome, Option.isSome_iff_ne_none]
  minted_le p hp := nomatch hp
  tag h n hn := by
    have htag := materializeAll_map (f := Node.tag) (fun _ _ _ => rfl) dom.nodes
      dom.streams.entries h
    rw [resolveTag, Dom.snapshot, htag, hn]
    rfl

end

end Dom

end OhMyPi
