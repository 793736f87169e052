import OhMyPi.Dom.RedactedReplica

/-! What a redacting subscriber can tell. Two owners that did the same but for hidden values have the
same blanked tree, and a subscriber sees nothing else, with two exceptions: a snapshot shows how many
bytes a hidden stream has received, and whether a hidden value is text decides whether a stream may
be opened on it. -/

namespace OhMyPi

section

variable (policy : PropPolicy)

/-! ## The same but for hidden values -/

/-- The same keys, and the same values under those that are shown. -/
def PropsLike (tag : Tag) : List (PropKey × Value) → List (PropKey × Value) → Prop :=
  List.Forall₂ fun p q => p.1 = q.1 ∧ (policy.redacts tag p.1 = false → p.2 = q.2)

def ContentLike (tag : Tag) : Option String → Option String → Prop :=
  Option.Rel fun text text' => policy.redactsContent tag = false → text = text'

structure SpecLike (spec spec' : NodeSpec) : Prop where
  tag : spec'.tag = spec.tag
  props : PropsLike policy spec.tag spec.props spec'.props
  content : ContentLike policy spec.tag spec.content spec'.content

structure NodeLike (node node' : Node) : Prop where
  tag : node'.tag = node.tag
  kids : node'.kids = node.kids
  props : PropsLike policy node.tag node.props node'.props
  content : ContentLike policy node.tag node.content node'.content

/-- The same operation, but for values that are hidden under the tag of their node. -/
def OpLike (resolve : Handle → Option Tag) : Op → Op → Prop
  | .ins parent after node, op => ∃ node', op = .ins parent after node' ∧ SpecLike policy node node'
  | .rm h, op => op = .rm h
  | .set h prop value, op => ∃ value', op = .set h prop value' ∧
    (∀ tag, resolve h = some tag → policy.redacts tag prop = false → value = value')
  | .mv h parent after, op => op = .mv h parent after

/-- Operation by operation, with the tags of the nodes that are inserted on the way. -/
def OpsLike (tags : Handle → Option Tag) (minted : List (Handle × Tag)) (highWater : Nat) :
    List Op → List Op → Prop
  | [], ops => ops = []
  | op :: ops, ops' => ∃ op₁ ops₁, ops' = op₁ :: ops₁ ∧
    OpLike policy (fun h => (tags h).or (tagOf minted h)) op op₁ ∧
    OpsLike tags (mintedBy minted highWater op).1 (mintedBy minted highWater op).2 ops ops₁

/-- The same stream, but for the text and byte count of one on a hidden property. -/
def StreamLike (nodes : Handle → Option Node) (p q : Sid × OpenStream) : Prop :=
  q.1 = p.1 ∧ q.2.node = p.2.node ∧ q.2.prop = p.2.prop ∧
    (policy.streamTargetRedacted nodes p.2.node p.2.prop = false → q.2 = p.2)

structure SnapshotLike (s s' : Snapshot) : Prop where
  highWater : s'.highWater = s.highWater
  nextSid : s'.nextSid = s.nextSid
  parents : s'.parents = s.parents
  nodes : ∀ h, Option.Rel (NodeLike policy) (s.nodes h) (s'.nodes h)
  streams : List.Forall₂ (StreamLike policy s.nodes) s.streams s'.streams

/-- The same mutation of `dom`, but for hidden values. -/
def OwnerOpLike (dom : Dom) : OwnerOp → OwnerOp → Prop
  | .apply txn prior, op => ∃ ops, op = .apply { txn with ops } prior ∧
    OpsLike policy (fun h => (dom.nodes h).map Node.tag) [] dom.highWater txn.ops ops
  | .streamAppend cause sid text, op => ∃ text', op = .streamAppend cause sid text' ∧
    ∀ stream, dom.streams.get? sid = some stream → ¬ dom.Hidden policy stream.node stream.prop →
      text = text'
  | .reset s, op => ∃ s', op = .reset s' ∧ SnapshotLike policy s s'
  | .streamOpen cause handle prop, op => op = .streamOpen cause handle prop
  | .streamOpenWithId cause sid handle prop, op => op = .streamOpenWithId cause sid handle prop
  | .streamClose cause sid, op => op = .streamClose cause sid

/-- Two runs of the same mutations, but for hidden values. -/
def RunLike : Dom → Dom → List OwnerOp → List OwnerOp → Prop
  | _, _, [], ops => ops = []
  | dom, dom', op :: ops, ops' => ∃ op₁ ops₁, ops' = op₁ :: ops₁ ∧ OwnerOpLike policy dom op op₁ ∧
    RunLike (dom.perform op).1 (dom'.perform op₁).1 ops ops₁

end

/-! ## Blanked alike -/

section

variable {policy : PropPolicy}

theorem PropsLike.blankProps_eq {tag : Tag} {props props' : List (PropKey × Value)}
    (h : PropsLike policy tag props props') :
    policy.blankProps tag props' = policy.blankProps tag props := by
  induction h with
  | nil => rfl
  | @cons p q props props' hpq _ ih =>
    rw [policy.blankProps_cons, policy.blankProps_cons, ih, ← hpq.1]
    congr 2
    rw [PropPolicy.blankValue, PropPolicy.blankValue]
    split
    · rfl
    · next hshown => rw [hpq.2 (Bool.not_eq_true _ ▸ hshown)]

theorem ContentLike.blankContent_eq {tag : Tag} {content content' : Option String}
    (h : ContentLike policy tag content content') :
    policy.blankContent tag content' = policy.blankContent tag content := by
  cases h with
  | none => rfl
  | some h =>
    rw [PropPolicy.blankContent, PropPolicy.blankContent, Option.map_some, Option.map_some]
    split
    · rfl
    · next hshown => rw [h (Bool.not_eq_true _ ▸ hshown)]

theorem SpecLike.blankSpec_eq {spec spec' : NodeSpec} (h : SpecLike policy spec spec') :
    policy.blankSpec spec' = policy.blankSpec spec := by
  rw [PropPolicy.blankSpec, PropPolicy.blankSpec, h.tag, h.props.blankProps_eq,
    h.content.blankContent_eq]

theorem NodeLike.blankNode_eq {node node' : Node} (h : NodeLike policy node node') :
    policy.blankNode node' = policy.blankNode node := by
  rw [PropPolicy.blankNode, PropPolicy.blankNode, h.tag, h.kids, h.props.blankProps_eq,
    h.content.blankContent_eq]

theorem OpLike.blank_eq {resolve : Handle → Option Tag} {op op' : Op}
    (h : OpLike policy resolve op op') : op'.blank policy resolve = op.blank policy resolve := by
  cases op with
  | ins parent after node =>
    obtain ⟨node', rfl, hlike⟩ := h
    rw [Op.blank, Op.blank, hlike.blankSpec_eq]
  | rm => rw [h]
  | set handle prop value =>
    obtain ⟨value', rfl, hvalue⟩ := h
    rw [Op.blank, Op.blank]
    cases hresolve : resolve handle with
    | none => rfl
    | some tag =>
      dsimp only
      congr 1
      rw [PropPolicy.blankValue, PropPolicy.blankValue]
      split
      · rfl
      · next hshown => rw [hvalue tag hresolve (Bool.not_eq_true _ ▸ hshown)]
  | mv => rw [h]

theorem OpLike.mintedBy_eq {resolve : Handle → Option Tag} {op op' : Op}
    (h : OpLike policy resolve op op') (minted : List (Handle × Tag)) (highWater : Nat) :
    mintedBy minted highWater op' = mintedBy minted highWater op := by
  cases op with
  | ins parent after node =>
    obtain ⟨node', rfl, hlike⟩ := h
    rw [mintedBy, mintedBy, hlike.tag]
  | rm => rw [h]
  | set handle prop value =>
    obtain ⟨value', rfl, -⟩ := h
    rfl
  | mv => rw [h]

/-- Transactions that differ in hidden values are redacted to the same. -/
theorem OpsLike.redactOps_eq {base base' : Snapshot} {tags : Handle → Option Tag}
    (hbase : ∀ h, (base.nodes h).map Node.tag = tags h)
    (hbase' : ∀ h, (base'.nodes h).map Node.tag = tags h) {minted : List (Handle × Tag)}
    {highWater : Nat} {ops ops' : List Op} (h : OpsLike policy tags minted highWater ops ops') :
    redactOps policy base' minted highWater ops' = redactOps policy base minted highWater ops := by
  induction ops generalizing minted highWater ops' with
  | nil =>
    obtain rfl : ops' = [] := h
    rfl
  | cons op ops ih =>
    obtain ⟨op₁, ops₁, rfl, hop, hrest⟩ := h
    have hresolve : ∀ base : Snapshot, (∀ h, (base.nodes h).map Node.tag = tags h) →
        resolveTag base minted = fun h => (tags h).or (tagOf minted h) := by
      intro base hbase
      funext h
      rw [resolveTag, hbase]
    rw [redactOps_cons, redactOps_cons, hresolve base hbase, hresolve base' hbase', hop.blank_eq,
      hop.mintedBy_eq, ih hrest]

end

/-! ## Owners that look alike -/

namespace Dom

/-- A value in the property is text. -/
def Textual (dom : Dom) (handle : Handle) (prop : PropKey) : Prop :=
  ∀ value, (dom.get handle).bind (·.prop prop) = some value → ∃ text, value = .str text

theorem validateStreamOpen_iff {dom : Dom} {sid : Sid} {handle : Handle} {prop : PropKey} :
    dom.validateStreamOpen sid handle prop = .ok () ↔
      dom.streams.contains sid = false ∧ ¬ sid < dom.nextSid ∧ dom.nodes handle ≠ none ∧
        dom.Textual handle prop := by
  rw [validateStreamOpen_eq_ok, Textual, Dom.get]
  refine and_congr_right fun _ => and_congr_right fun _ => ?_
  cases dom.nodes handle with
  | none => simp
  | some node =>
    cases hprop : node.prop prop with
    | none => simp [hprop]
    | some value => simp [hprop]

/-- The same tree, but for hidden values and what hidden streams have received. -/
def LooksLike (policy : PropPolicy) (dom dom' : Dom) : Prop :=
  dom'.hide policy (fun _ => 0) = dom.hide policy (fun _ => 0)

variable {policy : PropPolicy} {dom dom' : Dom}

namespace LooksLike

theorem hide_eq (h : dom.LooksLike policy dom') :
    dom'.hide policy (fun _ => 0) = dom.hide policy (fun _ => 0) := h

theorem tags (h : dom.LooksLike policy dom') (k : Handle) :
    (dom'.nodes k).map Node.tag = (dom.nodes k).map Node.tag := by
  have htag : ∀ d : Dom, (d.nodes k).map Node.tag =
      ((d.hide policy (fun _ => 0)).nodes k).map Node.tag := by
    intro d
    rw [hide_nodes, Option.map_map]
    rfl
  rw [htag dom', htag dom, h.hide_eq]

theorem highWater (h : dom.LooksLike policy dom') : dom'.highWater = dom.highWater := by
  have := congrArg Dom.highWater h.hide_eq
  exact this

theorem nextSid (h : dom.LooksLike policy dom') : dom'.nextSid = dom.nextSid := by
  have := congrArg Dom.nextSid h.hide_eq
  exact this

theorem hidden_iff (h : dom.LooksLike policy dom') (handle : Handle) (prop : PropKey) :
    dom'.Hidden policy handle prop ↔ dom.Hidden policy handle prop := by
  rw [Hidden, Hidden, PropPolicy.streamTargetRedacted_eq, h.tags,
    ← PropPolicy.streamTargetRedacted_eq]

theorem get?_streams (h : dom.LooksLike policy dom') (sid : Sid) :
    (dom'.streams.get? sid).map (policy.hideStream (fun _ => 0) dom'.nodes) =
      (dom.streams.get? sid).map (policy.hideStream (fun _ => 0) dom.nodes) := by
  rw [← OrdMap.get?_map, ← OrdMap.get?_map]
  exact congrArg (fun d : Dom => d.streams.get? sid) h.hide_eq

/-- What is stored in a shown property is the same. -/
theorem get_eq (h : dom.LooksLike policy dom') {handle : Handle} {prop : PropKey}
    (hshown : ¬ dom.Hidden policy handle prop) :
    (dom'.get handle).bind (·.prop prop) = (dom.get handle).bind (·.prop prop) := by
  have hget : ∀ d : Dom, ¬ d.Hidden policy handle prop → (d.get handle).bind (·.prop prop) =
      ((d.hide policy (fun _ => 0)).get handle).bind (·.prop prop) := by
    intro d hd
    simp only [get_hide, if_neg hd, Option.map_id']
  rw [hget dom hshown, hget dom' (mt (h.hidden_iff handle prop).1 hshown), h.hide_eq]

/-- Both may open a stream or neither, when they agree on whether a hidden value is text. -/
theorem validateStreamOpen_iff (h : dom.LooksLike policy dom') {sid : Sid} {handle : Handle}
    {prop : PropKey} (htext : dom.Hidden policy handle prop →
      (dom.Textual handle prop ↔ dom'.Textual handle prop)) :
    dom'.validateStreamOpen sid handle prop = .ok () ↔
      dom.validateStreamOpen sid handle prop = .ok () := by
  have hcontains : dom'.streams.contains sid = dom.streams.contains sid := by
    rw [OrdMap.contains, OrdMap.contains, ← Option.isSome_map, h.get?_streams, Option.isSome_map]
  have hnode : dom'.nodes handle ≠ none ↔ dom.nodes handle ≠ none := by
    rw [← Option.isSome_iff_ne_none, ← Option.isSome_iff_ne_none, ← Option.isSome_map (f := Node.tag),
      h.tags, Option.isSome_map]
  have htextual : dom'.Textual handle prop ↔ dom.Textual handle prop := by
    by_cases hhidden : dom.Hidden policy handle prop
    · exact (htext hhidden).symm
    · rw [Textual, Textual, h.get_eq hhidden]
  rw [Dom.validateStreamOpen_iff, Dom.validateStreamOpen_iff, hcontains, h.nextSid, hnode, htextual]

end LooksLike

/-- The owners agree on whether the value under a stream that is opened on a hidden property is
text. -/
def OpensAlike (policy : PropPolicy) (dom dom' : Dom) (op : OwnerOp) : Prop :=
  ∀ sid handle prop, dom.opens op = some (sid, handle, prop) → dom.Hidden policy handle prop →
    (dom.Textual handle prop ↔ dom'.Textual handle prop)

end Dom

/-- Streams that have received as many bytes. -/
def CountsAlike (streams streams' : List (Sid × OpenStream)) : Prop :=
  streams'.map (·.2.appendedBytes) = streams.map (·.2.appendedBytes)

/-- Resets to snapshots whose streams have received as many bytes. -/
def ResetsAlike (op op' : OwnerOp) : Prop :=
  ∀ s s', op = .reset s → op' = .reset s' → CountsAlike s.streams s'.streams

section

variable {policy : PropPolicy} {s s' : Snapshot}

theorem SnapshotLike.tags (h : SnapshotLike policy s s') (k : Handle) :
    (s'.nodes k).map Node.tag = (s.nodes k).map Node.tag :=
  map_eq_of_rel (h.nodes k) fun _ _ hlike => hlike.tag

theorem SnapshotLike.blank_eq (h : SnapshotLike policy s s') :
    (fun k => (s'.nodes k).map policy.blankNode) = fun k => (s.nodes k).map policy.blankNode :=
  funext fun k => map_eq_of_rel (h.nodes k) fun _ _ hlike => hlike.blankNode_eq

theorem StreamLike.hideStream_eq {nodes : Handle → Option Node} {p q : Sid × OpenStream}
    (h : StreamLike policy nodes p q) {count : Nat → Nat}
    (hcount : count q.2.appendedBytes = count p.2.appendedBytes) :
    (q.1, policy.hideStream count nodes q.2) = (p.1, policy.hideStream count nodes p.2) := by
  obtain ⟨hsid, hnode, hprop, hshown⟩ := h
  rw [hsid, PropPolicy.hideStream, PropPolicy.hideStream, hnode, hprop]
  split
  · rw [hcount]
  · next hhidden => rw [hshown (Bool.not_eq_true _ ▸ hhidden)]

theorem StreamLike.map_eq {nodes : Handle → Option Node} {streams streams' : List (Sid × OpenStream)}
    (h : List.Forall₂ (StreamLike policy nodes) streams streams') {count : Nat → Nat}
    (hcount : streams'.map (fun p => count p.2.appendedBytes) =
      streams.map fun p => count p.2.appendedBytes) :
    streams'.map (fun p => (p.1, policy.hideStream count nodes p.2)) =
      streams.map fun p => (p.1, policy.hideStream count nodes p.2) := by
  induction h with
  | nil => rfl
  | cons hpq _ ih =>
    rw [List.map_cons, List.map_cons] at hcount ⊢
    obtain ⟨hhead, htail⟩ := List.cons.inj hcount
    rw [hpq.hideStream_eq hhead, ih htail]

/-- The streams of two snapshots that differ in hidden values, seen through `count`. -/
theorem SnapshotLike.streams_eq (h : SnapshotLike policy s s') (count : Nat → Nat)
    (hcount : s'.streams.map (fun p => count p.2.appendedBytes) =
      s.streams.map fun p => count p.2.appendedBytes) :
    s'.streams.map (fun p => (p.1, policy.hideStream count s'.nodes p.2)) =
      s.streams.map fun p => (p.1, policy.hideStream count s.nodes p.2) := by
  rw [← StreamLike.map_eq h.streams hcount]
  apply List.map_congr_left
  intro p _
  rw [PropPolicy.hideStream_congr (h.tags p.2.node)]

/-- Snapshots that differ in hidden values are restored alike. -/
theorem SnapshotLike.looksLike (h : SnapshotLike policy s s') :
    (Dom.fromSnapshot s).LooksLike policy (Dom.fromSnapshot s') := by
  have hlength : s'.streams.map (fun _ => 0) = s.streams.map fun _ => 0 := by
    rw [List.map_const', List.map_const', h.streams.length_eq]
  rw [Dom.LooksLike, Dom.hide, Dom.hide, Dom.fromSnapshot, Dom.fromSnapshot]
  simp only [OrdMap.map_ofList, h.streams_eq (fun _ => 0) hlength, h.parents, h.highWater, h.nextSid, h.blank_eq]

/-- They are redacted to the same when their streams have received as many bytes. -/
theorem SnapshotLike.redact_eq (h : SnapshotLike policy s s')
    (hcounts : CountsAlike s.streams s'.streams) : s'.redact policy = s.redact policy := by
  have hstreams : (s'.redact policy).streams = (s.redact policy).streams :=
    h.streams_eq id hcounts
  refine Snapshot.ext h.highWater h.nextSid ?_ h.parents hstreams
  change materializeAll _ (s'.redact policy).streams = materializeAll _ (s.redact policy).streams
  rw [hstreams, h.blank_eq]

end

/-! ## Runs -/

namespace Dom

variable {policy : PropPolicy} {dom dom' : Dom}

/-- A mutation of both owners delivers the same and leaves them looking alike. -/
def StepsAlike (policy : PropPolicy) (dom dom' : Dom) (h : dom.Live) (h' : dom'.Live)
    (op op' : OwnerOp) : Prop :=
  dom'.delivered policy h' op' = dom.delivered policy h op ∧
    (dom.perform op).1.LooksLike policy (dom'.perform op').1

theorem LooksLike.steps_of_hide (h : dom.LooksLike policy dom') (hwf : dom.Wf) (hwf' : dom'.Wf)
    {op op' : OwnerOp}
    (hredact : op'.redact policy (dom'.snapshot hwf'.live) = op.redact policy (dom.snapshot hwf.live))
    (hperform : (dom.hide policy (fun _ => 0)).perform (op.redact policy (dom.snapshot hwf.live)) =
      ((dom.perform op).1.hide policy (fun _ => 0), dom.delivered policy hwf.live op))
    (hperform' : (dom'.hide policy (fun _ => 0)).perform
        (op'.redact policy (dom'.snapshot hwf'.live)) =
      ((dom'.perform op').1.hide policy (fun _ => 0), dom'.delivered policy hwf'.live op')) :
    StepsAlike policy dom dom' hwf.live hwf'.live op op' := by
  rw [hredact, h.hide_eq, hperform] at hperform'
  obtain ⟨hhide, hdelivered⟩ := Prod.mk.inj hperform'
  exact ⟨hdelivered.symm, hhide.symm⟩

theorem LooksLike.steps_open (h : dom.LooksLike policy dom') (hwf : dom.Wf) (hwf' : dom'.Wf)
    {op : OwnerOp} (cause : EntryId) {sid : Sid} {handle : Handle} {prop : PropKey}
    (hopens : dom.opens op = some (sid, handle, prop)) (halike : dom.OpensAlike policy dom' op)
    (hredact : ∀ base, op.redact policy base = op)
    (hperform : ∀ d : Dom, d.nextSid = dom.nextSid →
      d.perform op = d.published (d.streamOpen cause sid handle prop)) :
    StepsAlike policy dom dom' hwf.live hwf'.live op op := by
  have hiff : dom'.validateStreamOpen sid handle prop = .ok () ↔ _ :=
    h.validateStreamOpen_iff (halike sid handle prop hopens)
  have hok : ∀ {d : Dom} (hd : d.Wf), d.nextSid = dom.nextSid →
      d.validateStreamOpen sid handle prop = .ok () →
      (d.hide policy (fun _ => 0)).perform (op.redact policy (d.snapshot hd.live)) =
        ((d.perform op).1.hide policy (fun _ => 0), d.delivered policy hd.live op) := by
    intro d hd hsid hvalid
    rw [hredact, delivered, hperform d hsid, hperform (d.hide policy fun _ => 0) hsid]
    exact hide_perform_open rfl hd hvalid
  have hfail : ∀ {d : Dom} (e : DomError), d.nextSid = dom.nextSid →
      d.validateStreamOpen sid handle prop = .error e → d.perform op = (d, none) := by
    intro d e hsid herror
    rw [hperform d hsid, Dom.streamOpen, herror]
    rfl
  cases hvalid : dom.validateStreamOpen sid handle prop with
  | ok _ =>
    have hvalid' := hiff.2 hvalid
    refine h.steps_of_hide hwf hwf' ?_ (hok hwf rfl hvalid) (hok hwf' h.nextSid hvalid')
    rw [hredact, hredact]
  | error e =>
    cases hvalid' : dom'.validateStreamOpen sid handle prop with
    | ok _ =>
      rw [hiff.1 hvalid'] at hvalid
      cases hvalid
    | error e' =>
      have hop := hfail e rfl hvalid
      have hop' := hfail e' h.nextSid hvalid'
      refine ⟨?_, ?_⟩
      · rw [delivered, delivered, hop, hop']
        rfl
      · rw [hop, hop']
        exact h

theorem LooksLike.steps_append (h : dom.LooksLike policy dom') (hwf : dom.Wf) (hwf' : dom'.Wf)
    (cause : EntryId) (sid : Sid) {text text' : String}
    (hlike : ∀ stream, dom.streams.get? sid = some stream →
      ¬ dom.Hidden policy stream.node stream.prop → text = text') :
    StepsAlike policy dom dom' hwf.live hwf'.live (.streamAppend cause sid text)
      (.streamAppend cause sid text') := by
  have hget := h.get?_streams sid
  cases hstream : dom.streams.get? sid with
  | none =>
    rw [hstream, Option.map_none, Option.map_eq_none_iff] at hget
    refine ⟨?_, ?_⟩
    · rw [delivered, delivered, perform_append, perform_append, hstream, hget]
      rfl
    · rw [perform_append, perform_append, hstream, hget]
      exact h
  | some stream =>
    rw [hstream] at hget
    obtain ⟨stream', hstream', hhide⟩ := Option.map_eq_some_iff.1 hget
    have hnode : stream'.node = stream.node := by
      simpa using congrArg OpenStream.node hhide
    have hprop : stream'.prop = stream.prop := by
      simpa using congrArg OpenStream.prop hhide
    apply h.steps_of_hide hwf hwf'
    · rw [OwnerOp.redact, OwnerOp.redact, streamRedacted_snapshot hwf.live hstream,
        streamRedacted_snapshot hwf'.live hstream', hnode, hprop]
      change OwnerOp.streamAppend cause sid
          (if dom'.Hidden policy stream.node stream.prop then "" else text') =
        .streamAppend cause sid (if dom.Hidden policy stream.node stream.prop then "" else text)
      have hiff := h.hidden_iff stream.node stream.prop
      by_cases hhidden : dom.Hidden policy stream.node stream.prop
      · rw [if_pos (hiff.2 hhidden), if_pos hhidden]
      · rw [if_neg (mt hiff.1 hhidden), if_neg hhidden, hlike stream hstream hhidden]
    · exact hide_perform_append hwf fun _ _ _ => rfl
    · exact hide_perform_append hwf' fun _ _ _ => rfl

/-- One mutation of two owners that look alike. -/
theorem LooksLike.steps (h : dom.LooksLike policy dom') (hwf : dom.Wf) (hwf' : dom'.Wf)
    {op op' : OwnerOp} (hlike : OwnerOpLike policy dom op op')
    (halike : dom.OpensAlike policy dom' op) :
    (dom.perform op).1.LooksLike policy (dom'.perform op').1 ∧
      (ResetsAlike op op' →
        dom'.delivered policy hwf'.live op' = dom.delivered policy hwf.live op) := by
  have hsteps : StepsAlike policy dom dom' hwf.live hwf'.live op op' →
      (dom.perform op).1.LooksLike policy (dom'.perform op').1 ∧
        (ResetsAlike op op' →
          dom'.delivered policy hwf'.live op' = dom.delivered policy hwf.live op) :=
    fun h => ⟨h.2, fun _ => h.1⟩
  cases op with
  | apply txn prior =>
    obtain ⟨ops, rfl, hops⟩ := hlike
    apply hsteps
    apply h.steps_of_hide hwf hwf'
    · have hredact := hops.redactOps_eq (fun k => snapshot_tag hwf.live k)
        (fun k => (snapshot_tag hwf'.live k).trans (h.tags k))
      have hhighWater : (dom'.snapshot hwf'.live).highWater = (dom.snapshot hwf.live).highWater :=
        h.highWater
      have hbase : (dom.snapshot hwf.live).highWater = dom.highWater := rfl
      rw [OwnerOp.redact, OwnerOp.redact, hhighWater, hbase, hredact]
    · exact hide_perform_apply hwf txn prior
    · exact hide_perform_apply hwf' { txn with ops } prior
  | streamOpen cause handle prop =>
    obtain rfl : op' = _ := hlike
    apply hsteps
    refine h.steps_open hwf hwf' cause rfl halike (fun _ => rfl) fun d hd => ?_
    rw [Dom.perform, hd]
  | streamOpenWithId cause sid handle prop =>
    obtain rfl : op' = _ := hlike
    apply hsteps
    exact h.steps_open hwf hwf' cause rfl halike (fun _ => rfl) fun d _ => rfl
  | streamAppend cause sid text =>
    obtain ⟨text', rfl, htext⟩ := hlike
    exact hsteps (h.steps_append hwf hwf' cause sid htext)
  | streamClose cause sid =>
    obtain rfl : op' = _ := hlike
    apply hsteps
    exact h.steps_of_hide hwf hwf' rfl (hide_perform_close hwf cause sid)
      (hide_perform_close hwf' cause sid)
  | reset s =>
    obtain ⟨s', rfl, hs⟩ := hlike
    refine ⟨hs.looksLike, fun hresets => ?_⟩
    change some (Event.reset (s'.redact policy)) = some (Event.reset (s.redact policy))
    rw [hs.redact_eq (hresets s s' rfl rfl)]

/-- The state after a run. -/
def performAll (dom : Dom) (ops : List OwnerOp) : Dom := ops.foldl (fun d op => (d.perform op).1) dom

theorem Wf.performAll (h : dom.Wf) {ops : List OwnerOp} (hops : ∀ op ∈ ops, op.Valid) :
    (dom.performAll ops).Wf := by
  induction ops generalizing dom with
  | nil => exact h
  | cons op ops ih =>
    obtain ⟨hop, hops⟩ := List.forall_mem_cons.1 hops
    exact ih (h.perform hop) hops

/-- What a subscriber with this policy receives during a run. -/
def deliveries (policy : PropPolicy) : (owner : Dom) → owner.Live → List OwnerOp → List Event
  | _, _, [] => []
  | owner, h, op :: ops => (owner.delivered policy h op).toList ++
      deliveries policy (owner.perform op).1 (h.perform op) ops

/-- Along both runs the owners agree on whether a hidden value under a stream that is opened is
text. -/
def RunOpensAlike (policy : PropPolicy) : Dom → Dom → List OwnerOp → List OwnerOp → Prop
  | dom, dom', op :: ops, op' :: ops' => dom.OpensAlike policy dom' op ∧
    RunOpensAlike policy (dom.perform op).1 (dom'.perform op').1 ops ops'
  | _, _, _, _ => True

/-- Runs of the same mutations leave owners that look alike, and deliver the same events when resets
bring equal byte counts. -/
theorem LooksLike.run (h : dom.LooksLike policy dom') (hwf : dom.Wf) (hwf' : dom'.Wf)
    {ops ops' : List OwnerOp} (hops : ∀ op ∈ ops, op.Valid) (hops' : ∀ op ∈ ops', op.Valid)
    (hlike : RunLike policy dom dom' ops ops') (halike : RunOpensAlike policy dom dom' ops ops') :
    (dom.performAll ops).LooksLike policy (dom'.performAll ops') ∧
      (List.Forall₂ ResetsAlike ops ops' →
        deliveries policy dom' hwf'.live ops' = deliveries policy dom hwf.live ops) := by
  induction ops generalizing dom dom' ops' with
  | nil =>
    obtain rfl : ops' = [] := hlike
    exact ⟨h, fun _ => rfl⟩
  | cons op ops ih =>
    obtain ⟨op', ops', rfl, hop, hrest⟩ := hlike
    obtain ⟨hvalid, hops⟩ := List.forall_mem_cons.1 hops
    obtain ⟨hvalid', hops'⟩ := List.forall_mem_cons.1 hops'
    obtain ⟨hlooks, hdelivered⟩ := h.steps hwf hwf' hop halike.1
    obtain ⟨hend, hrun⟩ :=
      ih hlooks (hwf.perform hvalid) (hwf'.perform hvalid') hops hops' hrest halike.2
    refine ⟨hend, fun hresets => ?_⟩
    obtain ⟨hreset, hresets⟩ := List.forall₂_cons.1 hresets
    rw [deliveries, deliveries, hdelivered hreset, hrun hresets]

/-- The blanked tree with its byte counts put back. -/
theorem hide_streams_entries (dom : Dom) : (dom.hide policy id).streams.entries =
    List.zipWith (fun p n => (p.1, { p.2 with appendedBytes := n }))
      (dom.hide policy (fun _ => 0)).streams.entries
      (dom.streams.entries.map (·.2.appendedBytes)) := by
  have hentries : ∀ count : Nat → Nat, (dom.hide policy count).streams.entries =
      dom.streams.entries.map fun p => (p.1, policy.hideStream count dom.nodes p.2) := fun _ => rfl
  rw [hentries, hentries, List.zipWith_map, List.zipWith_self]
  apply List.map_congr_left
  intro p _
  by_cases hhidden : dom.Hidden policy p.2.node p.2.prop
  · rw [hideStream_of_hidden hhidden, hideStream_of_hidden hhidden]
    rfl
  · rw [hideStream_of_not_hidden hhidden, hideStream_of_not_hidden hhidden]

/-- Owners that look alike and whose streams have received as many bytes have the same redacted
snapshot. -/
theorem LooksLike.redact_eq (h : dom.LooksLike policy dom') (hlive : dom.Live) (hlive' : dom'.Live)
    (hcounts : CountsAlike dom.streams.entries dom'.streams.entries) :
    (dom'.snapshot hlive').redact policy = (dom.snapshot hlive).redact policy := by
  have hstreams : (dom'.hide policy id).streams = (dom.hide policy id).streams := by
    apply OrdMap.ext
    rw [hide_streams_entries, hide_streams_entries, h.hide_eq, hcounts]
  have hnodes : (dom'.hide policy id).nodes = (dom.hide policy id).nodes := by
    have := congrArg Dom.nodes h.hide_eq
    exact this
  have hparents : (dom'.hide policy id).parents = (dom.hide policy id).parents := by
    have := congrArg Dom.parents h.hide_eq
    exact this
  rw [snapshot_redact, snapshot_redact]
  apply Snapshot.ext h.highWater h.nextSid _ hparents (congrArg OrdMap.entries hstreams)
  change materializeAll _ (dom'.hide policy id).streams.entries =
    materializeAll _ (dom.hide policy id).streams.entries
  rw [hnodes, hstreams]

/-- Two runs of an owner that perform the same mutations, but for hidden values, before and after a
subscription, give the subscriber the same redacted snapshot and the same redacted events. The
owners have to agree on whether hidden values under opened streams are text, and on how many bytes
the streams in the snapshots have received. -/
theorem redaction_noninterference (policy : PropPolicy) {dom : Dom} (hwf : dom.Wf)
    {before before' after after' : List OwnerOp}
    (hbefore : ∀ op ∈ before, op.Valid) (hbefore' : ∀ op ∈ before', op.Valid)
    (hafter : ∀ op ∈ after, op.Valid) (hafter' : ∀ op ∈ after', op.Valid)
    (hlike : RunLike policy dom dom before before')
    (hlike' : RunLike policy (dom.performAll before) (dom.performAll before') after after')
    (hopens : RunOpensAlike policy dom dom before before')
    (hopens' : RunOpensAlike policy (dom.performAll before) (dom.performAll before') after after')
    (hcounts : CountsAlike (dom.performAll before).streams.entries
      (dom.performAll before').streams.entries)
    (hresets : List.Forall₂ ResetsAlike after after') :
    ((dom.performAll before').snapshot (hwf.performAll hbefore').live).redact policy =
        ((dom.performAll before).snapshot (hwf.performAll hbefore).live).redact policy ∧
      deliveries policy (dom.performAll before') (hwf.performAll hbefore').live after' =
        deliveries policy (dom.performAll before) (hwf.performAll hbefore).live after := by
  have hsubscribed := (LooksLike.run (Eq.refl _) hwf hwf hbefore hbefore' hlike hopens).1
  refine ⟨hsubscribed.redact_eq _ _ hcounts, ?_⟩
  exact (hsubscribed.run (hwf.performAll hbefore) (hwf.performAll hbefore') hafter hafter' hlike'
    hopens').2 hresets

/-- A stream on a hidden property that receives `text`. -/
def hiddenRun (text : String) : List OwnerOp :=
  [.streamOpen sampleCause body (.known .text), .streamAppend sampleCause 1 text]

theorem hiddenRun_valid (text : String) : ∀ op ∈ hiddenRun text, op.Valid := by
  intro op hop
  rcases List.mem_cons.1 hop with rfl | hop
  · trivial
  · obtain rfl := List.mem_singleton.1 hop
    trivial

theorem hiddenRun_like (text text' : String) :
    RunLike textPolicy .new .new (hiddenRun text) (hiddenRun text') := by
  refine ⟨_, _, rfl, rfl, _, _, rfl, ⟨text', rfl, ?_⟩, rfl⟩
  intro stream hstream hshown
  cases hstream
  exact absurd (by decide) hshown

theorem redaction_noninterference_hiddenRun :
    ((Dom.new.performAll (hiddenRun "b")).snapshot
          ((Wf.withHighWater 4).performAll (hiddenRun_valid "b")).live).redact textPolicy =
        ((Dom.new.performAll (hiddenRun "a")).snapshot
          ((Wf.withHighWater 4).performAll (hiddenRun_valid "a")).live).redact textPolicy ∧
      deliveries textPolicy (Dom.new.performAll (hiddenRun "b"))
          ((Wf.withHighWater 4).performAll (hiddenRun_valid "b")).live
          [.streamAppend sampleCause 1 "secret"] =
        deliveries textPolicy (Dom.new.performAll (hiddenRun "a"))
          ((Wf.withHighWater 4).performAll (hiddenRun_valid "a")).live
          [.streamAppend sampleCause 1 ""] := by
  apply redaction_noninterference textPolicy (Wf.withHighWater 4) (hiddenRun_valid "a")
    (hiddenRun_valid "b")
  · simp [OwnerOp.Valid]
  · simp [OwnerOp.Valid]
  · exact hiddenRun_like "a" "b"
  · refine ⟨_, _, rfl, ⟨"secret", rfl, ?_⟩, rfl⟩
    intro stream hstream hshown
    cases hstream
    exact absurd (by decide) hshown
  · refine ⟨?_, by simp [OpensAlike, opens], trivial⟩
    intro sid handle prop hopens _
    cases hopens
    exact Iff.rfl
  · exact ⟨by simp [OpensAlike, opens], trivial⟩
  · rfl
  · exact .cons (by simp [ResetsAlike]) .nil

/-- The length of a hidden stream's text shows in a redacted snapshot. -/
theorem hidden_length_shows :
    RunLike textPolicy .new .new (hiddenRun "a") (hiddenRun "ab") ∧
      (((Dom.new.performAll (hiddenRun "ab")).snapshot
          ((Wf.withHighWater 4).performAll (hiddenRun_valid "ab")).live).redact textPolicy).canonical ≠
        (((Dom.new.performAll (hiddenRun "a")).snapshot
          ((Wf.withHighWater 4).performAll (hiddenRun_valid "a")).live).redact textPolicy).canonical := by
  refine ⟨hiddenRun_like "a" "ab", fun hcanonical => ?_⟩
  have hcounts := congrArg (fun c => c.streams.map (·.2.appendedBytes)) hcanonical
  exact absurd hcounts (by decide)

end Dom

end OhMyPi
