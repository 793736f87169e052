import Mathlib.Data.Option.Basic
import OhMyPi.Dom.Stream

/-! Convergence of replicas. A replica starts from a snapshot, in which the text of every open
stream already stands in the stream's property, while the owner still has there what stood before.
The two trees therefore agree up to the first value of properties that an open stream is bound to,
and a canonical snapshot cannot tell them apart. What can is opening another stream on such a
property, since a stream begins with the text stored there. -/

namespace OhMyPi

open KeyedList

/-! ## Related options -/

section

variable {α β γ δ : Type*} {R R' : α → β → Prop} {S : γ → δ → Prop} {a : Option α} {b : Option β}

theorem rel_mono (h : Option.Rel R a b) (hR : ∀ x y, R x y → R' x y) : Option.Rel R' a b := by
  cases h with
  | none => exact .none
  | some h => exact .some (hR _ _ h)

theorem rel_map (h : Option.Rel R a b) {f : α → γ} {g : β → δ}
    (hfg : ∀ x y, R x y → S (f x) (g y)) : Option.Rel S (a.map f) (b.map g) := by
  cases h with
  | none => exact .none
  | some h => exact .some (hfg _ _ h)

theorem map_eq_of_rel (h : Option.Rel R a b) {f : α → γ} {g : β → γ}
    (hfg : ∀ x y, R x y → g y = f x) : b.map g = a.map f := by
  cases h with
  | none => rfl
  | some h => exact congrArg some (hfg _ _ h)

theorem rel_map_right (h : Option.Rel R a b) {g : β → β} (hg : ∀ x y, R x y → R x (g y)) :
    Option.Rel R a (b.map g) := by
  cases h with
  | none => exact .none
  | some h => exact .some (hg _ _ h)

end

/-! ## Nodes -/

/-- An open stream is bound to the property. -/
def Bound (streams : List (Sid × OpenStream)) (h : Handle) (key : PropKey) : Prop :=
  ∃ p ∈ streams, p.2.node = h ∧ p.2.prop = key

/-- `m` is `n` but for text in place of the first value of bound properties. -/
structure Node.Sim (bound : PropKey → Prop) (n m : Node) : Prop where
  tag : m.tag = n.tag
  kids : m.kids = n.kids
  content : m.content = n.content
  values : ∀ key, valuesAt key m.props = valuesAt key n.props ∨
    bound key ∧ ∃ text, valuesAt key m.props = .str text :: (valuesAt key n.props).tail

namespace Node.Sim

variable {bound bound' : PropKey → Prop} {n m : Node}

theorem refl (bound : PropKey → Prop) (n : Node) : Node.Sim bound n n :=
  ⟨rfl, rfl, rfl, fun _ => .inl rfl⟩

theorem mono (h : Node.Sim bound n m) (hbound : ∀ key, bound key → bound' key) :
    Node.Sim bound' n m :=
  { h with values := fun key => (h.values key).imp_right fun ⟨hb, hv⟩ => ⟨hbound key hb, hv⟩ }

theorem tail_eq (h : Node.Sim bound n m) (key : PropKey) :
    (valuesAt key m.props).tail = (valuesAt key n.props).tail := by
  rcases h.values key with heq | ⟨-, text, heq⟩
  · rw [heq]
  · rw [heq]
    rfl

/-- An assignment on both sides makes the property agree. -/
theorem setProp (h : Node.Sim bound n m) (key : PropKey) (value : Value) :
    Node.Sim (fun k => bound k ∧ k ≠ key) (n.setProp key value) (m.setProp key value) := by
  refine ⟨h.tag, h.kids, h.content, fun key' => ?_⟩
  by_cases hk : key' = key
  · subst hk
    left
    rw [Node.setProp, Node.setProp, valuesAt_assign_self, valuesAt_assign_self, h.tail_eq]
  · rw [Node.setProp, Node.setProp, valuesAt_assign_ne hk, valuesAt_assign_ne hk]
    exact (h.values key').imp_right fun ⟨hb, hv⟩ => ⟨⟨hb, hk⟩, hv⟩

/-- The text of a bound stream may be written on one side only. -/
theorem setProp_right (h : Node.Sim bound n m) {key : PropKey} (hbound : bound key)
    (text : String) : Node.Sim bound n (m.setProp key (.str text)) := by
  refine ⟨h.tag, h.kids, h.content, fun key' => ?_⟩
  by_cases hk : key' = key
  · subst hk
    right
    refine ⟨hbound, text, ?_⟩
    rw [Node.setProp, valuesAt_assign_self, h.tail_eq]
  · rw [Node.setProp, valuesAt_assign_ne hk]
    exact h.values key'

theorem sortProps (h : Node.Sim (fun _ => False) n m) : m.sortProps = n.sortProps := by
  have hsort : KeyedList.sort m.props = KeyedList.sort n.props := by
    apply sort_congr
    intro key
    exact (h.values key).resolve_right fun hb => hb.1
  cases n
  cases m
  cases h.tag
  cases h.kids
  cases h.content
  simp only [Node.sortProps] at hsort ⊢
  rw [hsort]

/-- A bound property of the replica holds text or what the owner's holds. -/
theorem prop_eq_or (h : Node.Sim bound n m) (key : PropKey) :
    m.prop key = n.prop key ∨ bound key ∧ ∃ text, m.prop key = some (.str text) := by
  rw [Node.prop, Node.prop, first_eq_head?, first_eq_head?]
  rcases h.values key with heq | ⟨hb, text, heq⟩
  · exact .inl (congrArg _ heq)
  · exact .inr ⟨hb, text, congrArg _ heq⟩

end Node.Sim

/-- The nodes agree up to what the streams will write. -/
def NodesSim (streams : List (Sid × OpenStream)) (nodes nodes' : Handle → Option Node) : Prop :=
  ∀ h, Option.Rel (Node.Sim (Bound streams h)) (nodes h) (nodes' h)

namespace NodesSim

variable {streams streams' : List (Sid × OpenStream)} {nodes nodes' : Handle → Option Node}

theorem refl (streams : List (Sid × OpenStream)) (nodes : Handle → Option Node) :
    NodesSim streams nodes nodes := by
  intro h
  cases nodes h with
  | none => exact .none
  | some n => exact .some (.refl _ n)

theorem mono (h : NodesSim streams nodes nodes')
    (hbound : ∀ h key, Bound streams h key → Bound streams' h key) :
    NodesSim streams' nodes nodes' := by
  intro k
  exact rel_mono (h k) fun n m hsim => hsim.mono (hbound k)

/-- Writes on both sides that agree node by node. -/
theorem update (h : NodesSim streams nodes nodes') (k : Handle) {o o' : Option Node}
    (ho : Option.Rel (Node.Sim (Bound streams k)) o o') :
    NodesSim streams (Function.update nodes k o) (Function.update nodes' k o') := by
  intro k'
  rw [Function.update_apply, Function.update_apply]
  split
  · next heq => exact heq ▸ ho
  · exact h k'

/-- Writing a stream's text on both sides makes its property agree. -/
theorem materialize {p : Sid × OpenStream} (h : NodesSim (p :: streams) nodes nodes') :
    NodesSim streams (materialize nodes p.2) (materialize nodes' p.2) := by
  have hbound : ∀ k key, Bound (p :: streams) k key → k ≠ p.2.node ∨ key ≠ p.2.prop →
      Bound streams k key := by
    rintro k key ⟨q, hq, rfl, rfl⟩ hne
    rcases List.mem_cons.1 hq with rfl | hq
    · simp at hne
    · exact ⟨q, hq, rfl, rfl⟩
  intro k
  rw [OhMyPi.materialize, OhMyPi.materialize, Function.update_apply, Function.update_apply]
  split
  · next heq =>
    subst heq
    apply rel_map (h p.2.node)
    intro n m hsim
    apply (hsim.setProp p.2.prop (.str p.2.text)).mono
    intro key hkey
    exact hbound _ key hkey.1 (.inr hkey.2)
  · next hne =>
    apply rel_mono (h k)
    intro n m hsim
    exact hsim.mono fun key hkey => hbound k key hkey (.inl hne)

theorem materializeAll (h : NodesSim streams nodes nodes') :
    NodesSim [] (materializeAll nodes streams) (materializeAll nodes' streams) := by
  induction streams generalizing nodes nodes' with
  | nil => exact h
  | cons p streams ih => exact ih h.materialize

/-- A snapshot's nodes agree with the owner's. -/
theorem materializeAll_right (h : NodesSim streams nodes nodes')
    (hsub : ∀ p ∈ streams', p ∈ streams) :
    NodesSim streams nodes (OhMyPi.materializeAll nodes' streams') := by
  induction streams' generalizing nodes' with
  | nil => exact h
  | cons p streams' ih =>
    have hone : NodesSim streams nodes (OhMyPi.materialize nodes' p.2) := ?_
    · exact ih hone fun q hq => hsub q (List.mem_cons_of_mem _ hq)
    intro k
    rw [OhMyPi.materialize, Function.update_apply]
    split
    · next heq =>
      subst heq
      have hbound : Bound streams p.2.node p.2.prop := ⟨p, hsub p List.mem_cons_self, rfl, rfl⟩
      exact rel_map_right (h p.2.node) fun n m hsim => hsim.setProp_right hbound _
    · exact h k

end NodesSim

/-- The replica `r` stands for the owner `o`. -/
structure Dom.Sim (o r : Dom) : Prop where
  parents : r.parents = o.parents
  highWater : r.highWater = o.highWater
  streams : r.streams = o.streams
  nextSid : r.nextSid = o.nextSid
  nodes : NodesSim o.streams.entries o.nodes r.nodes

namespace Dom.Sim

variable {o r : Dom}

/-- A fresh replica stands for the owner it was taken from. -/
theorem fromSnapshot (h : o.Live) : Sim o (fromSnapshot (o.snapshot h)) where
  parents := rfl
  highWater := rfl
  streams := OrdMap.ofList_entries o.streams
  nextSid := rfl
  nodes := (NodesSim.refl _ _).materializeAll_right fun _ hp => hp

/-- A canonical snapshot does not tell the replica from the owner. -/
theorem canonical_eq (h : Sim o r) : r.canonical = o.canonical := by
  rw [Dom.canonical, Dom.canonical, canonicalize, canonicalize, h.parents, h.highWater, h.streams,
    h.nextSid]
  congr 1
  apply List.filterMap_congr
  intro i _
  apply map_eq_of_rel (h.nodes.materializeAll (i + 1))
  intro n m hsim
  have hsort : m.sortProps = n.sortProps := by
    apply Node.Sim.sortProps
    apply hsim.mono
    rintro key ⟨p, hp, -⟩
    cases hp
  rw [hsort]

theorem children_eq (h : Sim o r) : r.children = o.children := by
  funext k
  rw [Dom.children, Dom.children, map_eq_of_rel (h.nodes k) fun n m hsim => hsim.kids]

/-- Validation sees the same tree. -/
theorem skeleton_eq (h : Sim o r) : r.skeleton = o.skeleton := by
  rw [Dom.skeleton, Dom.skeleton, h.children_eq, h.parents, h.highWater]
  congr 1
  funext k
  exact map_eq_of_rel (h.nodes k) fun n m hsim => hsim.tag

theorem validateOps_eq (h : Sim o r) (ops : List Op) : r.validateOps ops = o.validateOps ops := by
  rw [Dom.validateOps, Dom.validateOps, h.skeleton_eq]

/-! ### Transactions -/

theorem modifyNode (h : Sim o r) (k : Handle) {f : Node → Node}
    (hf : ∀ {bound n m}, Node.Sim bound n m → Node.Sim bound (f n) (f m)) :
    Sim (o.modifyNode k f) (r.modifyNode k f) :=
  { h with nodes := h.nodes.update k (rel_map (h.nodes k) fun _ _ hsim => hf hsim) }

theorem setParent (h : Sim o r) (k : Handle) (parent : Option Handle) :
    Sim (o.setParent k parent) (r.setParent k parent) :=
  { h with parents := by rw [Dom.setParent, Dom.setParent, h.parents] }

theorem takeNode (h : Sim o r) (k : Handle) : Sim (o.takeNode k) (r.takeNode k) where
  parents := by rw [Dom.takeNode, Dom.takeNode, h.parents]
  highWater := h.highWater
  streams := by rw [Dom.takeNode, Dom.takeNode, h.streams]
  nextSid := h.nextSid
  nodes := by
    intro k'
    simp only [Dom.takeNode, Function.update_apply]
    split
    · exact .none
    · next hne =>
      apply rel_mono (h.nodes k')
      intro n m hsim
      apply hsim.mono
      rintro key ⟨p, hp, hnode, hprop⟩
      refine ⟨p, OrdMap.mem_filter.2 ⟨hp, ?_⟩, hnode, hprop⟩
      rw [hnode]
      simpa using hne

theorem removePending (h : Sim o r) (rounds : Nat) (pending : List Handle) :
    Sim (o.removePending rounds pending) (r.removePending rounds pending) := by
  induction rounds generalizing o r pending with
  | zero => exact h
  | succ rounds ih =>
    rw [Dom.removePending, Dom.removePending]
    split
    · exact h
    · next current _ =>
      rw [h.children_eq]
      exact ih (h.takeNode current) _

theorem filterKids (h : Sim o r) (k handle : Handle) :
    Sim (o.modifyNode k fun node => { node with kids := node.kids.filter (· ≠ handle) })
      (r.modifyNode k fun node => { node with kids := node.kids.filter (· ≠ handle) }) := by
  apply h.modifyNode
  intro bound n m hsim
  exact { hsim with kids := by rw [hsim.kids] }

theorem insertKid (h : Sim o r) (k : Handle) (after : Option Handle) (handle : Handle) :
    Sim (o.modifyNode k fun node => { node with kids := insertAfter node.kids after handle })
      (r.modifyNode k fun node => { node with kids := insertAfter node.kids after handle }) := by
  apply h.modifyNode
  intro bound n m hsim
  exact { hsim with kids := by rw [hsim.kids] }

theorem applyOp (h : Sim o r) (op : Op) : Sim (o.applyOp op) (r.applyOp op) := by
  cases op with
  | ins parent after node =>
    rw [Dom.applyOp, Dom.applyOp, h.highWater]
    apply insertKid
    refine { h with highWater := rfl, parents := ?_, nodes := ?_ }
    · simp only [h.parents]
    · exact h.nodes.update _ (.some (.refl _ _))
  | rm handle =>
    simp only [Dom.applyOp, Dom.removeSubtree, Dom.parent, h.parents]
    cases o.parents handle with
    | none =>
      simp only [h.highWater]
      exact h.removePending _ _
    | some parent =>
      have hdetached := h.filterKids parent handle
      simp only [hdetached.highWater]
      exact hdetached.removePending _ _
  | set handle prop value =>
    apply h.modifyNode
    intro bound n m hsim
    exact (hsim.setProp prop value).mono fun _ hb => hb.1
  | mv handle parent after =>
    simp only [Dom.applyOp, Dom.moveNode, Dom.parent, h.parents]
    cases o.parents handle with
    | none => exact (h.insertKid parent after handle).setParent _ _
    | some old => exact ((h.filterKids old handle).insertKid parent after handle).setParent _ _

theorem applyOps (h : Sim o r) (ops : List Op) : Sim (o.applyOps ops) (r.applyOps ops) := by
  induction ops generalizing o r with
  | nil => exact h
  | cons op ops ih => exact ih (h.applyOp op)

/-! ### Streams -/

end Dom.Sim

namespace Dom

theorem validateStreamOpen_eq_ok {dom : Dom} {sid : Sid} {handle : Handle} {prop : PropKey} :
    dom.validateStreamOpen sid handle prop = .ok () ↔
      dom.streams.contains sid = false ∧ ¬ sid < dom.nextSid ∧
        ∃ node, dom.nodes handle = some node ∧
          (node.prop prop = none ∨ ∃ text, node.prop prop = some (.str text)) := by
  rw [validateStreamOpen, Except.ite_error_eq_ok, Except.ite_error_eq_ok, Bool.not_eq_true]
  refine and_congr Iff.rfl (and_congr Iff.rfl ?_)
  rw [Dom.get]
  cases dom.nodes handle with
  | none => simp
  | some node =>
    simp only [Option.some.injEq, exists_eq_left']
    split
    · next text heq => simp [heq]
    · next heq => simp [heq]
    · next value hne heq =>
      constructor
      · intro h
        cases h
      · rintro (h | ⟨text, h⟩)
        · rw [h] at heq
          cases heq
        · rw [h] at heq
          cases heq
          exact absurd rfl (hne text)

/-- A successful open adds a stream that begins with the stored text. -/
theorem streamOpen_eq_ok {dom dom' : Dom} {cause : EntryId} {sid : Sid} {handle : Handle}
    {prop : PropKey} {event : Event} :
    dom.streamOpen cause sid handle prop = .ok (dom', event) ↔
      dom.validateStreamOpen sid handle prop = .ok () ∧
      dom' = { dom with
        streams := dom.streams.insert sid
          { node := handle, prop, text := dom.storedText handle prop, appendedBytes := 0 }
        nextSid := max (max dom.nextSid sid.succ) 1 } ∧
      event = .stream cause sid .open (some handle) (some prop) none := by
  rw [streamOpen, Except.unit_bind_eq_ok, Except.pure_eq_ok, Prod.mk.injEq]
  exact and_congr Iff.rfl (and_congr eq_comm eq_comm)

end Dom

namespace Dom.Sim

variable {o r : Dom}

/-- The replica accepts every stream that the owner opens. -/
theorem validateStreamOpen (h : Sim o r) {sid : Sid} {handle : Handle} {prop : PropKey}
    (hv : o.validateStreamOpen sid handle prop = .ok ()) :
    r.validateStreamOpen sid handle prop = .ok () := by
  obtain ⟨hopen, hsid, node, hnode, htext⟩ := validateStreamOpen_eq_ok.1 hv
  apply validateStreamOpen_eq_ok.2
  rw [h.streams, h.nextSid]
  refine ⟨hopen, hsid, ?_⟩
  have hrel := h.nodes handle
  rw [hnode] at hrel
  generalize r.nodes handle = found at hrel ⊢
  cases hrel with
  | some hsim =>
    refine ⟨_, rfl, ?_⟩
    rcases hsim.prop_eq_or prop with heq | ⟨-, text, heq⟩
    · rw [heq]
      exact htext
    · exact .inr ⟨text, heq⟩

/-- Streams that begin with the same text keep the replica in step. -/
theorem opened (h : Sim o r) (sid nextSid : Sid) (stream : OpenStream)
    (hfresh : o.streams.contains sid = false) :
    Sim { o with streams := o.streams.insert sid stream, nextSid }
      { r with streams := r.streams.insert sid stream, nextSid } := by
  refine { h with streams := by rw [h.streams], nextSid := rfl, nodes := h.nodes.mono ?_ }
  rintro k key ⟨p, hp, hnode, hprop⟩
  refine ⟨p, OrdMap.mem_insert_of_ne hp ?_, hnode, hprop⟩
  rintro rfl
  rw [OrdMap.contains, OrdMap.get?_eq_some_iff.2 hp] at hfresh
  cases hfresh

/-- New text in an open stream leaves the bindings as they are. -/
theorem appended (h : Sim o r) {sid : Sid} {stream : OpenStream}
    (hstream : o.streams.get? sid = some stream) (text : String) :
    Sim { o with streams := o.streams.insert sid (stream.push text) }
      { r with streams := r.streams.insert sid (stream.push text) } := by
  refine { h with streams := by rw [h.streams], nodes := h.nodes.mono ?_ }
  rintro k key ⟨p, hp, rfl, rfl⟩
  by_cases hsid : p.1 = sid
  · subst hsid
    have heq := OrdMap.get?_eq_some_iff.2 hp
    rw [hstream, Option.some.injEq] at heq
    rw [← heq]
    exact ⟨_, OrdMap.get?_eq_some_iff.1 (OrdMap.get?_insert_self ..), rfl, rfl⟩
  · exact ⟨p, OrdMap.mem_insert_of_ne hp hsid, rfl, rfl⟩

/-- Closing a stream writes its text on both sides, so that its property agrees again. -/
theorem closed (h : Sim o r) {sid : Sid} {stream : OpenStream}
    (hstream : o.streams.get? sid = some stream) :
    Sim ({ o with streams := o.streams.erase sid }.modifyNode stream.node
        (·.setProp stream.prop (.str stream.text)))
      ({ r with streams := r.streams.erase sid }.modifyNode stream.node
        (·.setProp stream.prop (.str stream.text))) := by
  have hbound : ∀ k key, Bound o.streams.entries k key → k ≠ stream.node ∨ key ≠ stream.prop →
      Bound (o.streams.erase sid).entries k key := by
    rintro k key ⟨p, hp, rfl, rfl⟩ hne
    refine ⟨p, OrdMap.mem_erase.2 ⟨hp, ?_⟩, rfl, rfl⟩
    rintro rfl
    have heq := OrdMap.get?_eq_some_iff.2 hp
    rw [hstream, Option.some.injEq] at heq
    simp [heq] at hne
  refine { h with streams := by simp only [Dom.modifyNode, h.streams], nodes := fun k => ?_ }
  simp only [Dom.modifyNode, Function.update_apply]
  split
  · next heq =>
    subst heq
    apply rel_map (h.nodes stream.node)
    intro n m hsim
    apply (hsim.setProp stream.prop (.str stream.text)).mono
    intro key hkey
    exact hbound _ key hkey.1 (.inr hkey.2)
  · next hne =>
    apply rel_mono (h.nodes k)
    intro n m hsim
    exact hsim.mono fun key hkey => hbound k key hkey (.inl hne)

end Dom.Sim

/-! ## Streams stay bound -/

namespace Dom

theorem Live.of_nodes {dom dom' : Dom} (h : dom.Live)
    (hstreams : ∀ p ∈ dom'.streams.entries, ∃ q ∈ dom.streams.entries, q.2.node = p.2.node)
    (hnodes : ∀ k, dom.nodes k ≠ none → dom'.nodes k ≠ none) : dom'.Live := by
  intro p hp
  obtain ⟨q, hq, heq⟩ := hstreams p hp
  exact hnodes _ (heq ▸ h q hq)

theorem modifyNode_nodes_ne_none {dom : Dom} {k k' : Handle} {f : Node → Node} :
    (dom.modifyNode k f).nodes k' ≠ none ↔ dom.nodes k' ≠ none := by
  simp only [modifyNode, Function.update_apply]
  split
  · next heq => simp [heq]
  · rfl

theorem Live.modifyNode {dom : Dom} (h : dom.Live) (k : Handle) (f : Node → Node) :
    (dom.modifyNode k f).Live :=
  h.of_nodes (fun p hp => ⟨p, hp, rfl⟩) fun _ => modifyNode_nodes_ne_none.2

theorem Live.takeNode {dom : Dom} (h : dom.Live) (k : Handle) : (dom.takeNode k).Live := by
  intro p hp
  obtain ⟨hp, hne⟩ := OrdMap.mem_filter.1 hp
  have hne : p.2.node ≠ k := by simpa using hne
  simpa only [Dom.takeNode, Function.update_apply, if_neg hne] using h p hp

theorem Live.removePending {dom : Dom} (h : dom.Live) (rounds : Nat) (pending : List Handle) :
    (dom.removePending rounds pending).Live := by
  induction rounds generalizing dom pending with
  | zero => exact h
  | succ rounds ih =>
    rw [Dom.removePending]
    split
    · exact h
    · exact ih (h.takeNode _) _

theorem Live.applyOp {dom : Dom} (h : dom.Live) (op : Op) : (dom.applyOp op).Live := by
  cases op with
  | ins parent after node =>
    apply Live.modifyNode
    refine h.of_nodes (fun p hp => ⟨p, hp, rfl⟩) fun k hk => ?_
    simp only [Function.update_apply]
    split
    · simp
    · exact hk
  | rm handle =>
    rw [Dom.applyOp, Dom.removeSubtree]
    apply Live.removePending
    split
    · exact h.modifyNode _ _
    · exact h
  | set handle prop value => exact h.modifyNode _ _
  | mv handle parent after =>
    rw [Dom.applyOp, Dom.moveNode]
    have hdetached : ∀ {dom' : Dom}, dom'.Live → ((dom'.modifyNode parent fun node =>
        { node with kids := insertAfter node.kids after handle }).setParent handle
          (some parent)).Live := fun h' => h'.modifyNode _ _
    apply hdetached
    split
    · exact h.modifyNode _ _
    · exact h

theorem Live.applyOps {dom : Dom} (h : dom.Live) (ops : List Op) : (dom.applyOps ops).Live := by
  induction ops generalizing dom with
  | nil => exact h
  | cons op ops ih => exact ih (h.applyOp op)

theorem Live.fromSnapshot (s : Snapshot) : (fromSnapshot s).Live :=
  fun p hp => s.bound p (OrdMap.mem_ofList hp)

theorem Live.insert {dom : Dom} (h : dom.Live) (sid : Sid) {stream : OpenStream}
    (hstream : dom.nodes stream.node ≠ none) (nextSid : Sid) :
    Live { dom with streams := dom.streams.insert sid stream, nextSid } := by
  intro p hp
  rcases OrdMap.mem_insert hp with rfl | hp
  · exact hstream
  · exact h p hp

/-- What `published` leaves of a mutation. -/
theorem published_cases (dom : Dom) (x : Except DomError (Dom × Event)) :
    (∃ e, x = .error e ∧ dom.published x = (dom, none)) ∨
      ∃ dom' event, x = .ok (dom', event) ∧ dom.published x = (dom', some event) := by
  cases x with
  | error e => exact .inl ⟨e, rfl, rfl⟩
  | ok p => exact .inr ⟨p.1, p.2, rfl, rfl⟩

theorem streamAppend_eq_ok {dom dom' : Dom} {cause : EntryId} {sid : Sid} {text : String}
    {event : Event} (h : dom.streamAppend cause sid text = .ok (dom', event)) :
    ∃ stream, dom.streams.get? sid = some stream ∧
      dom' = { dom with streams := dom.streams.insert sid (stream.push text) } ∧
      event = .stream cause sid .append none none (some text) := by
  rw [streamAppend] at h
  split at h
  · cases h
  · next stream hstream =>
    cases h
    exact ⟨stream, hstream, rfl, rfl⟩

theorem streamClose_of_bound {dom : Dom} {cause : EntryId} {sid : Sid} {stream : OpenStream}
    (hstream : dom.streams.get? sid = some stream) (hnode : dom.nodes stream.node ≠ none) :
    dom.streamClose cause sid = (.ok (.stream cause sid .close none none none),
      { dom with streams := dom.streams.erase sid }.modifyNode stream.node
        (·.setProp stream.prop (.str stream.text))) := by
  obtain ⟨node, hnode⟩ := Option.ne_none_iff_exists'.1 hnode
  simp only [Dom.streamClose, hstream, hnode]

theorem Live.perform {dom : Dom} (h : dom.Live) (op : OwnerOp) : (dom.perform op).1.Live := by
  have hpublished : ∀ {x : Except DomError (Dom × Event)},
      (∀ dom' event, x = .ok (dom', event) → dom'.Live) → (dom.published x).1.Live := by
    intro x hx
    rcases published_cases dom x with ⟨e, -, heq⟩ | ⟨dom', event, hok, heq⟩
    · rw [heq]
      exact h
    · rw [heq]
      exact hx dom' event hok
  have hopen : ∀ cause sid handle prop,
      (dom.published (dom.streamOpen cause sid handle prop)).1.Live := by
    intro cause sid handle prop
    apply hpublished
    intro dom' event hok
    obtain ⟨hvalid, rfl, -⟩ := streamOpen_eq_ok.1 hok
    obtain ⟨-, -, node, hnode, -⟩ := validateStreamOpen_eq_ok.1 hvalid
    apply h.insert
    simp [hnode]
  cases op with
  | apply txn prior =>
    apply hpublished
    intro dom' event hok
    obtain ⟨⟨dom₁, minted⟩, happly, hok⟩ := Except.bind_eq_ok.1 hok
    obtain ⟨_, -, happly⟩ := Except.bind_eq_ok.1 happly
    cases happly
    cases hok
    exact h.applyOps txn.ops
  | streamOpen cause handle prop => exact hopen cause dom.nextSid handle prop
  | streamOpenWithId cause sid handle prop => exact hopen cause sid handle prop
  | streamAppend cause sid text =>
    apply hpublished
    intro dom' event hok
    obtain ⟨stream, hstream, rfl, -⟩ := streamAppend_eq_ok hok
    apply h.insert
    exact h _ (OrdMap.get?_eq_some_iff.1 hstream)
  | streamClose cause sid =>
    simp only [Dom.perform, Dom.streamClose]
    have herased : Live { dom with streams := dom.streams.erase sid } := by
      intro p hp
      exact h p (OrdMap.mem_erase.1 hp).1
    split
    · exact h
    · split
      · exact herased
      · exact herased.modifyNode _ _
  | reset snapshot => exact Live.fromSnapshot snapshot

/-- The trees an owner can come to hold. -/
inductive Reachable : Dom → Prop where
  | withHighWater (highWater : Nat) : Reachable (withHighWater highWater)
  | fromSnapshot (s : Snapshot) : Reachable (Dom.fromSnapshot s)
  | raiseHighWater (floor : Nat) : Reachable dom → Reachable (dom.raiseHighWater floor)
  | raiseStreamHighWater (floor : Sid) : Reachable dom → Reachable (dom.raiseStreamHighWater floor)
  | perform (op : OwnerOp) : Reachable dom → Reachable (dom.perform op).1

theorem Reachable.live {dom : Dom} (h : Reachable dom) : dom.Live := by
  induction h with
  | withHighWater =>
    intro p hp
    cases hp
  | fromSnapshot s => exact Live.fromSnapshot s
  | raiseHighWater floor _ ih =>
    rw [Dom.raiseHighWater]
    split
    · exact ih
    · exact ih
  | raiseStreamHighWater floor _ ih => exact ih
  | perform op _ ih => exact ih.perform op

/-! ## Convergence -/

/-- The replica receives what the owner published, if anything. -/
def follow (replica : Dom) : Option Event → Except DomError Dom
  | none => .ok replica
  | some event => replica.applyEvent event

/-- Now and after each further mutation of the owner, the replica has accepted every event and its
canonical snapshot is the owner's. -/
def Converges (owner replica : Dom) : List OwnerOp → Prop
  | [] => replica.canonical = owner.canonical
  | op :: ops => replica.canonical = owner.canonical ∧
    ∃ replica', replica.follow (owner.perform op).2 = .ok replica' ∧
      Converges (owner.perform op).1 replica' ops

/-- The stream a mutation asks to open, with its target. -/
def opens (dom : Dom) : OwnerOp → Option (Sid × Handle × PropKey)
  | .streamOpen _ handle prop => some (dom.nextSid, handle, prop)
  | .streamOpenWithId _ sid handle prop => some (sid, handle, prop)
  | _ => none

/-- A stream that the mutation opens finds the same stored text on both sides. -/
def Aligned (owner replica : Dom) (op : OwnerOp) : Prop :=
  ∀ sid handle prop, owner.opens op = some (sid, handle, prop) →
    owner.validateStreamOpen sid handle prop = .ok () →
      replica.storedText handle prop = owner.storedText handle prop

/-- Every stream opened along the run is aligned in the states before it. -/
def RunAligned (owner replica : Dom) : List OwnerOp → Prop
  | [] => True
  | op :: ops => owner.Aligned replica op ∧
    ∀ replica', replica.follow (owner.perform op).2 = .ok replica' →
      RunAligned (owner.perform op).1 replica' ops

variable {o r : Dom}

theorem Sim.apply (h : Sim o r) {txn : Txn} {o' : Dom} {minted : List Handle}
    (ho : o.apply txn = .ok (o', minted)) :
    ∃ r', r.apply txn = .ok (r', minted) ∧ Sim o' r' := by
  obtain ⟨_, hvalid, ho⟩ := Except.bind_eq_ok.1 ho
  cases ho
  refine ⟨r.applyOps txn.ops, ?_, h.applyOps txn.ops⟩
  rw [Dom.apply, h.validateOps_eq, hvalid]
  rfl

/-- What an open does to a replica in step with the owner. -/
theorem Sim.streamOpen (h : Sim o r) {cause : EntryId} {sid : Sid} {handle : Handle}
    {prop : PropKey} {o' : Dom} {event : Event}
    (ho : o.streamOpen cause sid handle prop = .ok (o', event)) :
    ∃ r', r.applyEvent event = .ok r' ∧
      (r.storedText handle prop = o.storedText handle prop → Sim o' r') ∧
      (r'.canonical = o'.canonical → r.storedText handle prop = o.storedText handle prop) := by
  obtain ⟨hvalid, rfl, rfl⟩ := streamOpen_eq_ok.1 ho
  have hr : r.streamOpen cause sid handle prop = .ok (_, _) :=
    streamOpen_eq_ok.2 ⟨h.validateStreamOpen hvalid, rfl, rfl⟩
  refine ⟨_, Except.map_eq_ok.2 ⟨_, hr, rfl⟩, fun htext => ?_, fun hcanonical => ?_⟩
  · rw [htext, h.nextSid]
    exact h.opened _ _ _ (validateStreamOpen_eq_ok.1 hvalid).1
  · have hstreams : r.streams.insert sid _ = o.streams.insert sid _ :=
      OrdMap.ext (congrArg Canonical.streams hcanonical)
    have hstream := congrArg (·.get? sid) hstreams
    simp only [OrdMap.get?_insert_self, Option.some.injEq, OpenStream.mk.injEq] at hstream
    exact hstream.2.2.1

/-- One mutation: the replica accepts what the owner publishes, and stays in step exactly when the
mutation is aligned. -/
theorem Sim.perform (h : Sim o r) (hlive : o.Live) (op : OwnerOp) :
    ∃ r', r.follow (o.perform op).2 = .ok r' ∧
      (o.Aligned r op → Sim (o.perform op).1 r') ∧
      (r'.canonical = (o.perform op).1.canonical → o.Aligned r op) := by
  have hother : o.opens op = none →
      (∃ r', r.follow (o.perform op).2 = .ok r' ∧ Sim (o.perform op).1 r') →
      ∃ r', r.follow (o.perform op).2 = .ok r' ∧ (o.Aligned r op → Sim (o.perform op).1 r') ∧
        (r'.canonical = (o.perform op).1.canonical → o.Aligned r op) := by
    rintro hnone ⟨r', hfollow, hsim⟩
    refine ⟨r', hfollow, fun _ => hsim, fun _ sid handle prop hopens => ?_⟩
    rw [hnone] at hopens
    cases hopens
  have hopen : ∀ cause sid handle prop, o.opens op = some (sid, handle, prop) →
      o.perform op = o.published (o.streamOpen cause sid handle prop) →
      ∃ r', r.follow (o.perform op).2 = .ok r' ∧ (o.Aligned r op → Sim (o.perform op).1 r') ∧
        (r'.canonical = (o.perform op).1.canonical → o.Aligned r op) := by
    intro cause sid handle prop hopens hperform
    rw [hperform]
    rcases published_cases o (o.streamOpen cause sid handle prop) with
      ⟨e, herror, heq⟩ | ⟨o', event, hok, heq⟩
    · rw [heq]
      refine ⟨r, rfl, fun _ => h, fun _ sid' handle' prop' hopens' hvalid => ?_⟩
      rw [hopens] at hopens'
      cases hopens'
      rw [Dom.streamOpen, hvalid] at herror
      cases herror
    · rw [heq]
      obtain ⟨r', hr', hsim, hconverse⟩ := h.streamOpen hok
      refine ⟨r', hr', fun haligned => ?_, fun hcanonical sid' handle' prop' hopens' _ => ?_⟩
      · exact hsim (haligned sid handle prop hopens (streamOpen_eq_ok.1 hok).1)
      · rw [hopens] at hopens'
        cases hopens'
        exact hconverse hcanonical
  cases op with
  | streamOpen cause handle prop => exact hopen cause _ handle prop rfl rfl
  | streamOpenWithId cause sid handle prop => exact hopen cause sid handle prop rfl rfl
  | apply txn prior =>
    apply hother rfl
    rw [Dom.perform]
    rcases published_cases o (o.applyWithPrior txn prior) with
      ⟨e, -, heq⟩ | ⟨o', event, hok, heq⟩
    · rw [heq]
      exact ⟨r, rfl, h⟩
    · rw [heq]
      obtain ⟨⟨o₁, minted⟩, happly, hok⟩ := Except.bind_eq_ok.1 hok
      cases hok
      obtain ⟨r', hr', hsim⟩ := h.apply happly
      have hpatch : r.applyWithPrior txn prior =
          .ok (r', .patch txn.cause prior txn.label txn.ops) := Except.bind_eq_ok.2 ⟨_, hr', rfl⟩
      exact ⟨r', Except.map_eq_ok.2 ⟨_, hpatch, rfl⟩, hsim⟩
  | streamAppend cause sid text =>
    apply hother rfl
    rw [Dom.perform]
    cases hstream : o.streams.get? sid with
    | none =>
      have herror : o.streamAppend cause sid text = .error (.missingStream sid) := by
        rw [Dom.streamAppend, hstream]
      rw [herror]
      exact ⟨r, rfl, h⟩
    | some stream =>
      rw [Dom.streamAppend, hstream]
      refine ⟨_, ?_, h.appended hstream text⟩
      show (r.streamAppend cause sid text).map _ = _
      rw [Dom.streamAppend, h.streams, hstream]
      rfl
  | streamClose cause sid =>
    apply hother rfl
    cases hstream : o.streams.get? sid with
    | none =>
      simp only [Dom.perform, Dom.streamClose, hstream]
      exact ⟨r, rfl, h⟩
    | some stream =>
      have hnode := hlive _ (OrdMap.get?_eq_some_iff.1 hstream)
      have hnode' : r.nodes stream.node ≠ none := by
        rw [← Option.isSome_iff_ne_none] at hnode ⊢
        have hisSome := map_eq_of_rel (h.nodes stream.node) fun n m _ => (rfl : () = ())
        simpa using (congrArg Option.isSome hisSome).trans (by simpa using hnode)
      have hstream' := hstream
      rw [← h.streams] at hstream'
      rw [Dom.perform, streamClose_of_bound hstream hnode]
      refine ⟨_, ?_, h.closed hstream⟩
      simp only [Except.toOption, Dom.follow, Dom.applyEvent,
        streamClose_of_bound hstream' hnode']
  | reset snapshot =>
    apply hother rfl
    exact ⟨Dom.fromSnapshot snapshot, rfl, ⟨rfl, rfl, rfl, rfl, NodesSim.refl _ _⟩⟩

theorem Sim.converges_iff (h : Sim o r) (hlive : o.Live) (ops : List OwnerOp) :
    Converges o r ops ↔ RunAligned o r ops := by
  induction ops generalizing o r with
  | nil => exact ⟨fun _ => trivial, fun _ => h.canonical_eq⟩
  | cons op ops ih =>
    obtain ⟨r', hfollow, hsim, hconverse⟩ := h.perform hlive op
    constructor
    · rintro ⟨-, r₁, hr₁, hrest⟩
      rw [hfollow] at hr₁
      cases hr₁
      have haligned : o.Aligned r op := by
        apply hconverse
        cases ops with
        | nil => exact hrest
        | cons => exact hrest.1
      refine ⟨haligned, fun r₂ hr₂ => ?_⟩
      rw [hfollow] at hr₂
      cases hr₂
      exact (ih (hsim haligned) (hlive.perform op)).1 hrest
    · rintro ⟨haligned, hrest⟩
      exact ⟨h.canonical_eq, r', hfollow,
        (ih (hsim haligned) (hlive.perform op)).2 (hrest r' hfollow)⟩

/-- A replica taken at any moment of any owner's history follows every later run, event by event,
exactly when no stream is opened on a property whose stored text differs between the two. -/
theorem replica_converges_iff {owner : Dom} (h : Reachable owner) (ops : List OwnerOp) :
    Converges owner (fromSnapshot (owner.snapshot h.live)) ops ↔
      RunAligned owner (fromSnapshot (owner.snapshot h.live)) ops :=
  (Sim.fromSnapshot h.live).converges_iff h.live ops

theorem replica_converges_new :
    Converges .new (fromSnapshot (Dom.new.snapshot (Reachable.withHighWater 4).live))
      [.streamOpen ⟨0, by decide⟩ body (.known .text), .streamAppend ⟨0, by decide⟩ 1 "a"] := by
  apply (replica_converges_iff (.withHighWater 4) _).2
  refine ⟨fun sid handle prop hopens _ => ?_, fun _ _ => ⟨fun sid handle prop hopens _ => ?_, ?_⟩⟩
  · cases hopens
    rfl
  · cases hopens
  · exact fun _ _ => trivial

/-- An owner with one open stream, whose text is not yet in its property. -/
def midStream : Dom :=
  ((Dom.new.perform (.streamOpen ⟨0, by decide⟩ body (.known .text))).1.perform
    (.streamAppend ⟨0, by decide⟩ 1 "a")).1

theorem midStream_reachable : Reachable midStream :=
  .perform _ (.perform _ (.withHighWater 4))

/-- A second stream on the property begins empty on the owner and with the first stream's text on
a replica taken in between. -/
theorem second_stream_diverges :
    Reachable midStream ∧
      ¬ Converges midStream (fromSnapshot (midStream.snapshot midStream_reachable.live))
        [.streamOpen ⟨0, by decide⟩ body (.known .text)] := by
  refine ⟨midStream_reachable, ?_⟩
  rintro ⟨-, replica, hfollow, hcanonical⟩
  cases hfollow
  have hstreams := congrArg (fun c => c.streams.map (·.2.text)) hcanonical
  exact absurd hstreams (by decide)

/-! ## Streams that do not share a property -/

/-- Along the run no stream is opened on a property that an open stream is bound to. -/
def Unshared (owner : Dom) : List OwnerOp → Prop
  | [] => True
  | op :: ops =>
    (∀ sid handle prop, owner.opens op = some (sid, handle, prop) →
      ¬ Bound owner.streams.entries handle prop) ∧ Unshared (owner.perform op).1 ops

/-- Stored text differs only under an open stream. -/
theorem Sim.storedText_eq (h : Sim o r) {handle : Handle} {prop : PropKey}
    (hbound : ¬ Bound o.streams.entries handle prop) :
    r.storedText handle prop = o.storedText handle prop := by
  have hprop : (r.get handle).map (·.prop prop) = (o.get handle).map (·.prop prop) := by
    apply map_eq_of_rel (h.nodes handle)
    intro n m hsim
    exact (hsim.prop_eq_or prop).resolve_right fun hb => hbound hb.1
  have hjoin : ∀ found : Option Node, (found.bind (·.prop prop)) = (found.map (·.prop prop)).join :=
    fun found => by cases found <;> rfl
  rw [storedText, storedText, hjoin, hjoin, hprop]

end Dom

end OhMyPi
