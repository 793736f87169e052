import OhMyPi.Dom.Redact

/-! Redacted replicas. Blanking is done twice, on snapshots and on events; both amount to the same
blanked tree, whose own replica the subscriber is. What is not blanked in step is the byte count of
a stream: a snapshot keeps the owner's, while blanked deltas do not add to the replica's. -/

namespace OhMyPi

/-- What every snapshot of the source satisfies by construction: its nodes are within the mark, and
the text of its streams is written into them. -/
structure Snapshot.Valid (s : Snapshot) : Prop where
  slotted : ∀ h, s.nodes h ≠ none → h ≤ s.highWater
  built : materializeAll s.nodes s.streams = s.nodes

theorem Snapshot.ext {s s' : Snapshot} (hhighWater : s.highWater = s'.highWater)
    (hnextSid : s.nextSid = s'.nextSid) (hnodes : s.nodes = s'.nodes)
    (hparents : s.parents = s'.parents) (hstreams : s.streams = s'.streams) : s = s' := by
  cases s
  cases s'
  cases hhighWater
  cases hnextSid
  cases hnodes
  cases hparents
  cases hstreams
  rfl

namespace PropPolicy

variable {policy : PropPolicy} {count : Nat → Nat}

theorem blankProps_assignAll (tag : Tag) (values props : List (PropKey × Value)) :
    policy.blankProps tag (KeyedList.assignAll values props) =
      KeyedList.assignAll (policy.blankProps tag values) (policy.blankProps tag props) := by
  induction values generalizing props with
  | nil => rfl
  | cons p values ih =>
    rw [KeyedList.assignAll, List.foldl_cons, blankProps_cons, KeyedList.assignAll, List.foldl_cons,
      ← blankProps_assign]
    exact ih _

theorem streamTargetRedacted_of_some {nodes : Handle → Option Node} {h : Handle} {n : Node}
    (hn : nodes h = some n) (prop : PropKey) :
    policy.streamTargetRedacted nodes h prop = policy.redacts n.tag prop := by
  rw [streamTargetRedacted, hn]

theorem textsAt_hide {nodes : Handle → Option Node} {h : Handle} {n : Node}
    (hn : nodes h = some n) (streams : List (Sid × OpenStream)) :
    textsAt (streams.map fun p => (p.1, policy.hideStream count nodes p.2)) h =
      policy.blankProps n.tag (textsAt streams h) := by
  induction streams with
  | nil => rfl
  | cons p streams ih =>
    rw [textsAt] at ih ⊢
    rw [List.map_cons, List.filter_cons, hideStream_node, textsAt, List.filter_cons]
    by_cases hp : p.2.node = h
    · rw [if_pos (by simpa using hp), if_pos (by simpa using hp), List.map_cons, ih]
      rw [List.map_cons, blankProps_cons, ← textsAt, hideStream_prop]
      congr 2
      rw [hideStream, hp, streamTargetRedacted_of_some hn, blankValue]
      by_cases hredacts : policy.redacts n.tag p.2.prop = true
      · rw [if_pos hredacts, if_pos hredacts]
      · rw [if_neg hredacts, if_neg hredacts]
    · rw [if_neg (by simpa using hp), if_neg (by simpa using hp), ih, ← textsAt]

/-- Writing the streams' text and blanking, in either order. -/
theorem blank_materializeAll (policy : PropPolicy) (count : Nat → Nat)
    (nodes : Handle → Option Node) (streams : List (Sid × OpenStream)) :
    (fun h => (materializeAll nodes streams h).map policy.blankNode) =
      materializeAll (fun h => (nodes h).map policy.blankNode)
        (streams.map fun p => (p.1, policy.hideStream count nodes p.2)) := by
  funext h
  rw [materializeAll_apply, materializeAll_apply]
  cases hn : nodes h with
  | none => rfl
  | some n =>
    rw [textsAt_hide hn]
    simp only [Option.map_some, blankNode, blankProps_assignAll]

theorem blankStream_eq {nodes nodes' : Handle → Option Node} {stream : OpenStream}
    (h : (nodes' stream.node).map Node.tag = (nodes stream.node).map Node.tag) :
    policy.blankStream nodes' stream = policy.hideStream id nodes stream := by
  rw [← hideStream_congr h]
  rfl

end PropPolicy

namespace Dom

variable {policy : PropPolicy} {count : Nat → Nat} {dom dom' : Dom}

theorem Live.hide (h : dom.Live) : (dom.hide policy count).Live := by
  intro p hp
  obtain ⟨q, hq, rfl⟩ := List.mem_map.1 hp
  have hnode := h q hq
  rw [← Option.isSome_iff_ne_none] at hnode ⊢
  rw [PropPolicy.hideStream_node, Dom.hide, Option.isSome_map]
  exact hnode

theorem snapshot_tag (h : dom.Live) (k : Handle) :
    ((dom.snapshot h).nodes k).map Node.tag = (dom.nodes k).map Node.tag :=
  materializeAll_map (fun _ _ _ => rfl) ..

theorem snapshot_redact_streams (h : dom.Live) :
    ((dom.snapshot h).redact policy).streams = (dom.hide policy id).streams.entries := by
  apply List.map_congr_left
  intro p _
  rw [PropPolicy.blankStream_eq (snapshot_tag h p.2.node)]

/-- The redacted snapshot is the snapshot of the blanked tree. -/
theorem snapshot_redact (h : dom.Live) :
    (dom.snapshot h).redact policy = (dom.hide policy id).snapshot h.hide := by
  refine Snapshot.ext rfl rfl ?_ rfl (snapshot_redact_streams h)
  have hblank : (fun k => ((dom.snapshot h).nodes k).map policy.blankNode) =
      materializeAll (dom.hide policy id).nodes (dom.hide policy id).streams.entries :=
    PropPolicy.blank_materializeAll ..
  change materializeAll (fun k => ((dom.snapshot h).nodes k).map policy.blankNode)
    ((dom.snapshot h).redact policy).streams = _
  rw [hblank, snapshot_redact_streams, materializeAll_materializeAll]
  rfl

/-- A valid snapshot is restored, redacted, to the blanked tree. -/
theorem fromSnapshot_redact {s : Snapshot} (h : s.Valid) :
    fromSnapshot (s.redact policy) = (fromSnapshot s).hide policy id := by
  have hnodes : (s.redact policy).nodes = fun k => (s.nodes k).map policy.blankNode := by
    have hblank := policy.blank_materializeAll id s.nodes s.streams
    rw [h.built] at hblank
    exact hblank.symm
  rw [fromSnapshot, fromSnapshot, hide, hnodes, OrdMap.map_ofList]
  rfl

/-! ### Streams -/

/-- Whether the policy hides the property of a node. -/
def Hidden (policy : PropPolicy) (dom : Dom) (handle : Handle) (prop : PropKey) : Prop :=
  policy.streamTargetRedacted dom.nodes handle prop = true

instance instDecidableHidden (policy : PropPolicy) (dom : Dom) (handle : Handle) (prop : PropKey) :
    Decidable (dom.Hidden policy handle prop) := inferInstanceAs (Decidable (_ = true))

theorem hideStream_of_hidden {stream : OpenStream}
    (h : dom.Hidden policy stream.node stream.prop) : policy.hideStream count dom.nodes stream =
      { stream with text := "", appendedBytes := count stream.appendedBytes } := if_pos h

theorem hideStream_of_not_hidden {stream : OpenStream}
    (h : ¬ dom.Hidden policy stream.node stream.prop) :
    policy.hideStream count dom.nodes stream = stream := if_neg h

theorem get_hide (handle : Handle) (prop : PropKey) :
    ((dom.hide policy count).get handle).bind (·.prop prop) =
      ((dom.get handle).bind (·.prop prop)).map fun value =>
        if dom.Hidden policy handle prop then .str "" else value := by
  rw [get, get, hide_nodes]
  cases hn : dom.nodes handle with
  | none => rfl
  | some n =>
    rw [Option.map_some, Option.bind_some, Option.bind_some, policy.prop_blankNode]
    simp only [Hidden, PropPolicy.streamTargetRedacted_of_some hn]
    rfl

theorem storedText_hide (handle : Handle) (prop : PropKey) :
    (dom.hide policy count).storedText handle prop =
      if dom.Hidden policy handle prop then "" else dom.storedText handle prop := by
  rw [storedText, storedText, get_hide]
  split
  · cases (dom.get handle).bind (·.prop prop) with
    | none => rfl
    | some value => rfl
  · rw [Option.map_id']

/-- What the owner may open, the blanked tree may. -/
theorem validateStreamOpen_hide {sid : Sid} {handle : Handle} {prop : PropKey}
    (h : dom.validateStreamOpen sid handle prop = .ok ()) :
    (dom.hide policy count).validateStreamOpen sid handle prop = .ok () := by
  obtain ⟨hopen, hsid, node, hnode, htext⟩ := validateStreamOpen_eq_ok.1 h
  refine validateStreamOpen_eq_ok.2 ⟨?_, hsid, policy.blankNode node, ?_, ?_⟩
  · rw [hide_streams, OrdMap.contains_map]
    exact hopen
  · rw [hide_nodes, hnode]
    rfl
  · rw [policy.prop_blankNode]
    rcases htext with hnone | ⟨text, htext⟩
    · exact .inl (by rw [hnone]; rfl)
    · right
      rw [htext, Option.map_some, PropPolicy.blankValue]
      split
      · exact ⟨_, rfl⟩
      · exact ⟨_, rfl⟩

theorem hide_streamOpen (hcount : count 0 = 0) {cause : EntryId} {sid : Sid} {handle : Handle}
    {prop : PropKey} {event : Event} (h : dom.streamOpen cause sid handle prop = .ok (dom', event)) :
    (dom.hide policy count).streamOpen cause sid handle prop =
      .ok (dom'.hide policy count, event) := by
  obtain ⟨hvalid, rfl, rfl⟩ := streamOpen_eq_ok.1 h
  refine streamOpen_eq_ok.2 ⟨validateStreamOpen_hide hvalid, ?_, rfl⟩
  have hstream : policy.hideStream count dom.nodes
      { node := handle, prop, text := dom.storedText handle prop, appendedBytes := 0 } =
      { node := handle
        prop
        text := (dom.hide policy count).storedText handle prop
        appendedBytes := 0 } := by
    rw [storedText_hide]
    by_cases hhidden : dom.Hidden policy handle prop
    · rw [hideStream_of_hidden hhidden, if_pos hhidden, hcount]
    · rw [hideStream_of_not_hidden hhidden, if_neg hhidden]
  rw [← hstream]
  simp only [hide, OrdMap.map_insert]

theorem hide_streamAppend (cause : EntryId) {sid : Sid} {text : String} {stream : OpenStream}
    (hstream : dom.streams.get? sid = some stream)
    (hcount : dom.Hidden policy stream.node stream.prop →
      count (stream.appendedBytes + Str.len text) = count stream.appendedBytes) :
    (dom.hide policy count).streamAppend cause sid
        (if dom.Hidden policy stream.node stream.prop then "" else text) =
      .ok ({ dom with streams := dom.streams.insert sid (stream.push text) }.hide policy count,
        .stream cause sid .append none none
          (some (if dom.Hidden policy stream.node stream.prop then "" else text))) := by
  have hget : (dom.hide policy count).streams.get? sid =
      some (policy.hideStream count dom.nodes stream) := by
    rw [hide_streams, OrdMap.get?_map, hstream]
    rfl
  rw [Dom.streamAppend, hget]
  have hpush : (policy.hideStream count dom.nodes stream).push
      (if dom.Hidden policy stream.node stream.prop then "" else text) =
      policy.hideStream count dom.nodes (stream.push text) := by
    by_cases hhidden : dom.Hidden policy stream.node stream.prop
    · have hpushed : dom.Hidden policy (stream.push text).node (stream.push text).prop := hhidden
      rw [if_pos hhidden, hideStream_of_hidden hhidden, hideStream_of_hidden hpushed,
        OpenStream.push, OpenStream.push, hcount hhidden]
      rfl
    · have hpushed : ¬ dom.Hidden policy (stream.push text).node (stream.push text).prop := hhidden
      rw [if_neg hhidden, hideStream_of_not_hidden hhidden, hideStream_of_not_hidden hpushed]
  simp only [hpush, hide, OrdMap.map_insert]

theorem hide_streamClose (hlive : dom.Live) {cause : EntryId} {sid : Sid} {stream : OpenStream}
    (hstream : dom.streams.get? sid = some stream) :
    (dom.hide policy count).streamClose cause sid =
      (.ok (.stream cause sid .close none none none),
        (dom.streamClose cause sid).2.hide policy count) := by
  have hnode := hlive _ (OrdMap.get?_eq_some_iff.1 hstream)
  have hget : (dom.hide policy count).streams.get? sid =
      some (policy.hideStream count dom.nodes stream) := by
    rw [hide_streams, OrdMap.get?_map, hstream]
    rfl
  have hlive' : (dom.hide policy count).Live := hlive.hide
  have hnode' := hlive' _ (OrdMap.get?_eq_some_iff.1 hget)
  rw [streamClose_of_bound hget hnode', streamClose_of_bound hstream hnode]
  dsimp only
  rw [hide_modifyNode (f := (·.setProp stream.prop (.str stream.text)))
    (g := (·.setProp stream.prop (.str (policy.hideStream count dom.nodes stream).text)))
    (fun _ => rfl)]
  · simp only [PropPolicy.hideStream_node, PropPolicy.hideStream_prop]
    congr 2
    simp only [hide, OrdMap.map_erase]
  · intro n hn
    rw [policy.blankNode_setProp]
    congr 1
    by_cases hhidden : dom.Hidden policy stream.node stream.prop
    · rw [hideStream_of_hidden hhidden, PropPolicy.blankValue, if_pos]
      rw [← hhidden]
      exact (PropPolicy.streamTargetRedacted_of_some hn _).symm
    · rw [hideStream_of_not_hidden hhidden, PropPolicy.blankValue, if_neg]
      rw [← PropPolicy.streamTargetRedacted_of_some hn]
      exact hhidden

/-! ### Mutations -/

theorem streamRedacted_snapshot (hlive : dom.Live) {sid : Sid} {stream : OpenStream}
    (hstream : dom.streams.get? sid = some stream) :
    streamRedacted policy (dom.snapshot hlive) sid none none =
      policy.streamTargetRedacted dom.nodes stream.node stream.prop := by
  simp only [streamRedacted, Dom.snapshot, OrdMap.find?_entries, hstream, Option.map_some]
  have htag : (materializeAll dom.nodes dom.streams.entries stream.node).map Node.tag =
      (dom.nodes stream.node).map Node.tag := materializeAll_map (fun _ _ _ => rfl) ..
  rw [PropPolicy.streamTargetRedacted_eq, htag, ← PropPolicy.streamTargetRedacted_eq]

/-- The state before is well formed as the source keeps it. -/
structure Wf (dom : Dom) : Prop where
  live : dom.Live
  slotted : dom.Slotted

end Dom

/-- A reset brings a snapshot that the source could have built. -/
def OwnerOp.Valid : OwnerOp → Prop
  | .reset s => s.Valid
  | _ => True

/-- A mutation with blanked values. -/
def OwnerOp.redact (policy : PropPolicy) (base : Snapshot) : OwnerOp → OwnerOp
  | .apply txn prior =>
    .apply { txn with ops := redactOps policy base [] base.highWater txn.ops } prior
  | .streamAppend cause sid text =>
    .streamAppend cause sid (if streamRedacted policy base sid none none then "" else text)
  | .reset snapshot => .reset (snapshot.redact policy)
  | .streamOpen cause handle prop => .streamOpen cause handle prop
  | .streamOpenWithId cause sid handle prop => .streamOpenWithId cause sid handle prop
  | .streamClose cause sid => .streamClose cause sid

namespace Dom

section

variable {policy : PropPolicy} {count : Nat → Nat} {dom : Dom}

theorem Wf.perform (h : dom.Wf) {op : OwnerOp} (hop : op.Valid) : (dom.perform op).1.Wf := by
  refine ⟨h.live.perform op, ?_⟩
  have hopen : ∀ cause sid handle prop,
      (dom.published (dom.streamOpen cause sid handle prop)).1.Slotted := by
    intro cause sid handle prop
    rcases published_cases dom (dom.streamOpen cause sid handle prop) with
      ⟨e, -, heq⟩ | ⟨dom', event, hok, heq⟩
    · rw [heq]
      exact h.slotted
    · rw [heq]
      obtain ⟨-, rfl, -⟩ := streamOpen_eq_ok.1 hok
      exact h.slotted
  cases op with
  | apply txn prior =>
    rw [Dom.perform]
    rcases published_cases dom (dom.applyWithPrior txn prior) with
      ⟨e, -, heq⟩ | ⟨dom', event, hok, heq⟩
    · rw [heq]
      exact h.slotted
    · rw [heq]
      obtain ⟨⟨dom₁, minted⟩, happly, hok⟩ := Except.bind_eq_ok.1 hok
      obtain ⟨_, -, happly⟩ := Except.bind_eq_ok.1 happly
      cases happly
      cases hok
      exact h.slotted.applyOps txn.ops
  | streamOpen cause handle prop => exact hopen cause dom.nextSid handle prop
  | streamOpenWithId cause sid handle prop => exact hopen cause sid handle prop
  | streamAppend cause sid text =>
    rw [Dom.perform, Dom.streamAppend]
    split
    · exact h.slotted
    · exact h.slotted
  | streamClose cause sid =>
    have hclosed : Slotted { dom with streams := dom.streams.erase sid } := h.slotted
    simp only [Dom.perform, Dom.streamClose]
    split
    · exact h.slotted
    · split
      · exact h.slotted
      · exact hclosed.modifyNode _ _
  | reset snapshot => exact hop.slotted

/-- A transaction that fails or commits. -/
theorem perform_apply (dom : Dom) (txn : Txn) (prior : Option EntryId) :
    dom.perform (.apply txn prior) =
      match dom.validateOps txn.ops with
      | .ok _ => (dom.applyOps txn.ops, some (.patch txn.cause prior txn.label txn.ops))
      | .error _ => (dom, none) := by
  rw [Dom.perform, Dom.applyWithPrior, Dom.apply]
  cases dom.validateOps txn.ops with
  | error e => rfl
  | ok minted => rfl

theorem hide_perform_apply (hwf : dom.Wf) (txn : Txn) (prior : Option EntryId) :
    (dom.hide policy count).perform ((OwnerOp.apply txn prior).redact policy (dom.snapshot hwf.live)) =
      ((dom.perform (.apply txn prior)).1.hide policy count,
        (dom.perform (.apply txn prior)).2.map (redactEvent policy (dom.snapshot hwf.live))) := by
  have happly : (dom.applyOps txn.ops).hide policy count = _ :=
    hide_applyOps hwf.live hwf.slotted (.snapshot hwf.live hwf.slotted) txn.ops
  rw [OwnerOp.redact, perform_apply, perform_apply, validateOps_redactOps]
  cases dom.validateOps txn.ops with
  | error e => rfl
  | ok minted => exact congrArg (·, _) happly.symm

theorem hide_perform_close (hwf : dom.Wf) (cause : EntryId) (sid : Sid) :
    (dom.hide policy count).perform (.streamClose cause sid) =
      ((dom.perform (.streamClose cause sid)).1.hide policy count,
        (dom.perform (.streamClose cause sid)).2.map (redactEvent policy (dom.snapshot hwf.live))) := by
  cases hstream : dom.streams.get? sid with
  | none =>
    have hget : (dom.hide policy count).streams.get? sid = none := by
      rw [hide_streams, OrdMap.get?_map, hstream]
      rfl
    simp only [Dom.perform, Dom.streamClose, hstream, hget]
    rfl
  | some stream =>
    have hnode := hwf.live _ (OrdMap.get?_eq_some_iff.1 hstream)
    simp only [Dom.perform, hide_streamClose hwf.live hstream]
    rw [streamClose_of_bound hstream hnode]
    rfl

theorem hide_perform_open (hcount : count 0 = 0) (hwf : dom.Wf) {cause : EntryId} {sid : Sid}
    {handle : Handle} {prop : PropKey}
    (hvalid : dom.validateStreamOpen sid handle prop = .ok ()) :
    (dom.hide policy count).published ((dom.hide policy count).streamOpen cause sid handle prop) =
      ((dom.published (dom.streamOpen cause sid handle prop)).1.hide policy count,
        (dom.published (dom.streamOpen cause sid handle prop)).2.map
          (redactEvent policy (dom.snapshot hwf.live))) := by
  have hok : dom.streamOpen cause sid handle prop = .ok (_, _) :=
    streamOpen_eq_ok.2 ⟨hvalid, rfl, rfl⟩
  rw [hide_streamOpen hcount hok, hok]
  rfl

theorem perform_append (dom : Dom) (cause : EntryId) (sid : Sid) (text : String) :
    dom.perform (.streamAppend cause sid text) =
      match dom.streams.get? sid with
      | none => (dom, none)
      | some stream => ({ dom with streams := dom.streams.insert sid (stream.push text) },
          some (.stream cause sid .append none none (some text))) := by
  rw [Dom.perform, Dom.streamAppend]
  cases dom.streams.get? sid with
  | none => rfl
  | some stream => rfl

theorem hide_perform_append (hwf : dom.Wf) {cause : EntryId} {sid : Sid} {text : String}
    (hcount : ∀ stream, dom.streams.get? sid = some stream →
      dom.Hidden policy stream.node stream.prop →
        count (stream.appendedBytes + Str.len text) = count stream.appendedBytes) :
    (dom.hide policy count).perform
        ((OwnerOp.streamAppend cause sid text).redact policy (dom.snapshot hwf.live)) =
      ((dom.perform (.streamAppend cause sid text)).1.hide policy count,
        (dom.perform (.streamAppend cause sid text)).2.map
          (redactEvent policy (dom.snapshot hwf.live))) := by
  cases hstream : dom.streams.get? sid with
  | none =>
    have hget : (dom.hide policy count).streams.get? sid = none := by
      rw [hide_streams, OrdMap.get?_map, hstream]
      rfl
    rw [OwnerOp.redact, perform_append, perform_append, hstream, hget]
    rfl
  | some stream =>
    have htext : (if streamRedacted policy (dom.snapshot hwf.live) sid none none then "" else text) =
        if dom.Hidden policy stream.node stream.prop then "" else text := by
      rw [streamRedacted_snapshot hwf.live hstream]
      rfl
    have happend := hide_streamAppend cause hstream (hcount stream hstream)
    rw [OwnerOp.redact, perform_append dom, hstream, Dom.perform, htext, happend]
    simp only [published, Option.map_some, redactEvent, htext]

/-! ### Convergence -/

/-- Text appended to a hidden stream is empty. -/
def Silent (policy : PropPolicy) (dom : Dom) (op : OwnerOp) : Prop :=
  ∀ cause sid text stream, op = .streamAppend cause sid text →
    dom.streams.get? sid = some stream → dom.Hidden policy stream.node stream.prop → text = ""

/-- A stream that the mutation opens finds on the replica what the blanked tree stores. -/
def AlignedRedacted (policy : PropPolicy) (owner replica : Dom) (op : OwnerOp) : Prop :=
  ∀ sid handle prop, owner.opens op = some (sid, handle, prop) →
    owner.validateStreamOpen sid handle prop = .ok () →
      replica.storedText handle prop =
        if owner.Hidden policy handle prop then "" else owner.storedText handle prop

end

/-- The event that a subscriber with this policy receives for a mutation. -/
def delivered (policy : PropPolicy) (owner : Dom) (h : owner.Live) (op : OwnerOp) : Option Event :=
  (owner.perform op).2.map (redactEvent policy (owner.snapshot h))

/-- Now and after each further mutation of the owner, the redacted replica has accepted every
redacted event and its canonical snapshot is that of the owner, redacted. -/
def ConvergesRedacted (policy : PropPolicy) :
    (owner : Dom) → owner.Live → Dom → List OwnerOp → Prop
  | owner, h, replica, [] => replica.canonical = ((owner.snapshot h).redact policy).canonical
  | owner, h, replica, op :: ops =>
    replica.canonical = ((owner.snapshot h).redact policy).canonical ∧
      ∃ replica', replica.follow (owner.delivered policy h op) = .ok replica' ∧
        ConvergesRedacted policy (owner.perform op).1 (h.perform op) replica' ops

/-- Nothing is appended to a hidden stream, and every stream is opened aligned, in the states
before. -/
def RunConcealed (policy : PropPolicy) : (owner : Dom) → owner.Live → Dom → List OwnerOp → Prop
  | _, _, _, [] => True
  | owner, h, replica, op :: ops =>
    (owner.Silent policy op ∧ owner.AlignedRedacted policy replica op) ∧
      ∀ replica', replica.follow (owner.delivered policy h op) = .ok replica' →
        RunConcealed policy (owner.perform op).1 (h.perform op) replica' ops

variable {policy : PropPolicy} {o r : Dom}

/-- A mutation whose blanked form does to the blanked tree what it does to the owner. -/
theorem Sim.follow_redacted (h : Sim (o.hide policy id) r) (hwf : o.Wf) {op : OwnerOp}
    (hperform : (o.hide policy id).perform (op.redact policy (o.snapshot hwf.live)) =
      ((o.perform op).1.hide policy id, o.delivered policy hwf.live op)) :
    ∃ r', r.follow (o.delivered policy hwf.live op) = .ok r' ∧
      ((o.hide policy id).Aligned r (op.redact policy (o.snapshot hwf.live)) →
        Sim ((o.perform op).1.hide policy id) r') ∧
      (r'.canonical = ((o.perform op).1.hide policy id).canonical →
        (o.hide policy id).Aligned r (op.redact policy (o.snapshot hwf.live))) := by
  have hsim := h.perform hwf.live.hide (op.redact policy (o.snapshot hwf.live))
  rwa [hperform] at hsim

theorem opens_redact (base : Snapshot) (op : OwnerOp) :
    (o.hide policy id).opens (op.redact policy base) = o.opens op := by
  cases op with
  | apply => rfl
  | streamOpen => rfl
  | streamOpenWithId => rfl
  | streamAppend => rfl
  | streamClose => rfl
  | reset => rfl

/-- Mutations that open no stream are aligned. -/
theorem alignedRedacted_of_opens (h : o.opens op = none) : o.AlignedRedacted policy r op := by
  intro sid handle prop hopens
  rw [h] at hopens
  cases hopens

/-- What one mutation does to a redacted replica in step. -/
def StepsRedacted (policy : PropPolicy) (o : Dom) (h : o.Live) (r : Dom) (op : OwnerOp) : Prop :=
  ∃ r', r.follow (o.delivered policy h op) = .ok r' ∧
    (o.Silent policy op ∧ o.AlignedRedacted policy r op →
      Sim ((o.perform op).1.hide policy id) r') ∧
    (r'.canonical = ((o.perform op).1.hide policy id).canonical →
      o.Silent policy op ∧ o.AlignedRedacted policy r op)

theorem Sim.steps_of_not_opens (h : Sim (o.hide policy id) r) (hwf : o.Wf) {op : OwnerOp}
    (hopens : o.opens op = none) (hsilent : o.Silent policy op)
    (hperform : (o.hide policy id).perform (op.redact policy (o.snapshot hwf.live)) =
      ((o.perform op).1.hide policy id, o.delivered policy hwf.live op)) :
    StepsRedacted policy o hwf.live r op := by
  obtain ⟨r', hr', hsim, -⟩ := h.follow_redacted hwf hperform
  refine ⟨r', hr', fun _ => hsim fun sid handle prop hop => ?_, fun _ =>
    ⟨hsilent, alignedRedacted_of_opens hopens⟩⟩
  rw [opens_redact, hopens] at hop
  cases hop

theorem Sim.steps_open (h : Sim (o.hide policy id) r) (hwf : o.Wf) {op : OwnerOp} (cause : EntryId)
    {sid : Sid} {handle : Handle} {prop : PropKey} (hopens : o.opens op = some (sid, handle, prop))
    (hredact : op.redact policy (o.snapshot hwf.live) = op)
    (hperform : ∀ d : Dom, d.nextSid = o.nextSid →
      d.perform op = d.published (d.streamOpen cause sid handle prop))
    (hsilent : o.Silent policy op) : StepsRedacted policy o hwf.live r op := by
  cases hvalid : o.validateStreamOpen sid handle prop with
  | error e =>
    -- the owner refuses, nothing is published and nothing changes
    have hfail : o.perform op = (o, none) := by
      rw [hperform o rfl, Dom.streamOpen, hvalid]
      rfl
    refine ⟨r, ?_, fun _ => ?_, fun _ => ⟨hsilent, fun sid' handle' prop' hop hok => ?_⟩⟩
    · rw [delivered, hfail]
      rfl
    · rw [hfail]
      exact h
    · rw [hopens] at hop
      cases hop
      rw [hvalid] at hok
      cases hok
  | ok _ =>
    have hstep : (o.hide policy id).perform (op.redact policy (o.snapshot hwf.live)) =
        ((o.perform op).1.hide policy id, o.delivered policy hwf.live op) := by
      rw [hredact, hperform (o.hide policy id) rfl, delivered, hperform o rfl]
      exact hide_perform_open rfl hwf hvalid
    obtain ⟨r', hr', hsim, hconverse⟩ := h.follow_redacted hwf hstep
    have hiff : (o.hide policy id).Aligned r (op.redact policy (o.snapshot hwf.live)) ↔
        o.AlignedRedacted policy r op := by
      constructor
      · intro haligned sid' handle' prop' hop hok
        have hstored : (o.hide policy id).storedText handle' prop' = _ := storedText_hide handle' prop'
        rw [← hstored]
        refine haligned sid' handle' prop' ?_ (validateStreamOpen_hide hok)
        rw [opens_redact, hop]
      · intro haligned sid' handle' prop' hop _
        rw [opens_redact, hopens] at hop
        cases hop
        rw [storedText_hide]
        exact haligned sid handle prop hopens hvalid
    refine ⟨r', hr', fun hconcealed => hsim (hiff.2 hconcealed.2), fun hcanonical => ?_⟩
    exact ⟨hsilent, hiff.1 (hconverse hcanonical)⟩

theorem Sim.steps_append (h : Sim (o.hide policy id) r) (hwf : o.Wf) (cause : EntryId) (sid : Sid)
    (text : String) : StepsRedacted policy o hwf.live r (.streamAppend cause sid text) := by
  by_cases hsilent : o.Silent policy (.streamAppend cause sid text)
  · apply h.steps_of_not_opens hwf rfl hsilent
    apply hide_perform_append hwf
    intro stream hstream hhidden
    rw [hsilent cause sid text stream rfl hstream hhidden]
    rfl
  · -- the replica's counter stays behind the owner's
    simp only [Silent, not_forall] at hsilent
    obtain ⟨_, _, _, stream, ⟨⟩, hstream, hhidden, htext⟩ := hsilent
    have hget : r.streams.get? sid = some (policy.hideStream id o.nodes stream) := by
      rw [h.streams, hide_streams, OrdMap.get?_map, hstream]
      rfl
    have hdelivered : o.delivered policy hwf.live (.streamAppend cause sid text) =
        some (.stream cause sid .append none none (some "")) := by
      have hredacted : streamRedacted policy (o.snapshot hwf.live) sid none none = true := by
        rw [streamRedacted_snapshot hwf.live hstream]
        exact hhidden
      rw [delivered, perform_append, hstream]
      simp only [Option.map_some, redactEvent, if_pos hredacted]
    refine ⟨{ r with streams := r.streams.insert sid ((policy.hideStream id o.nodes stream).push "") },
      ?_, fun hconcealed => ?_, fun hcanonical => ?_⟩
    · rw [hdelivered, follow, applyEvent, Dom.streamAppend, hget]
      rfl
    · exact absurd (hconcealed.1 cause sid text stream rfl hstream hhidden) htext
    · have hstreams : r.streams.insert sid ((policy.hideStream id o.nodes stream).push "") =
          ((o.perform (.streamAppend cause sid text)).1.hide policy id).streams :=
        OrdMap.ext (congrArg Canonical.streams hcanonical)
      rw [perform_append, hstream, hide_streams] at hstreams
      have hcounts := congrArg (fun m => (m.get? sid).map OpenStream.appendedBytes) hstreams
      have hpushed : o.Hidden policy (stream.push text).node (stream.push text).prop := hhidden
      simp only [OrdMap.get?_map, OrdMap.get?_insert_self, Option.map_some, Option.some.injEq,
        hideStream_of_hidden hhidden, hideStream_of_hidden hpushed] at hcounts
      have hlen : Str.len "" = Str.len text := Nat.add_left_cancel hcounts
      exact absurd (String.utf8ByteSize_eq_zero_iff.1 hlen.symm) htext

theorem Sim.steps_redacted (h : Sim (o.hide policy id) r) (hwf : o.Wf) {op : OwnerOp}
    (hop : op.Valid) : StepsRedacted policy o hwf.live r op := by
  have hsilent : (∀ cause sid text, op ≠ .streamAppend cause sid text) → o.Silent policy op :=
    fun hne cause sid text _ heq => absurd heq (hne cause sid text)
  cases op with
  | apply txn prior =>
    exact h.steps_of_not_opens hwf rfl (hsilent (by simp)) (hide_perform_apply hwf txn prior)
  | streamOpen cause handle prop =>
    apply h.steps_open hwf cause rfl rfl _ (hsilent (by simp))
    intro d hd
    rw [Dom.perform, hd]
  | streamOpenWithId cause sid handle prop =>
    exact h.steps_open hwf cause rfl rfl (fun d _ => rfl) (hsilent (by simp))
  | streamAppend cause sid text => exact h.steps_append hwf cause sid text
  | streamClose cause sid =>
    exact h.steps_of_not_opens hwf rfl (hsilent (by simp)) (hide_perform_close hwf cause sid)
  | reset snapshot =>
    apply h.steps_of_not_opens hwf rfl (hsilent (by simp))
    exact congrArg (·, _) (fromSnapshot_redact hop)

theorem Sim.convergesRedacted_iff (h : Sim (o.hide policy id) r) (hwf : o.Wf) {ops : List OwnerOp}
    (hops : ∀ op ∈ ops, op.Valid) :
    ConvergesRedacted policy o hwf.live r ops ↔ RunConcealed policy o hwf.live r ops := by
  have hcanonical : ∀ {o r : Dom} (hlive : o.Live), Sim (o.hide policy id) r →
      r.canonical = ((o.snapshot hlive).redact policy).canonical := by
    intro o r hlive hsim
    rw [snapshot_redact]
    exact hsim.canonical_eq
  induction ops generalizing o r with
  | nil => exact ⟨fun _ => trivial, fun _ => hcanonical hwf.live h⟩
  | cons op ops ih =>
    obtain ⟨hop, hops⟩ := List.forall_mem_cons.1 hops
    obtain ⟨r', hfollow, hsim, hconverse⟩ := h.steps_redacted hwf hop
    have hwf' := hwf.perform hop
    constructor
    · rintro ⟨-, r₁, hr₁, hrest⟩
      rw [hfollow] at hr₁
      cases hr₁
      have hconcealed := hconverse (by
        have hnow : r'.canonical =
            (((o.perform op).1.snapshot hwf'.live).redact policy).canonical := by
          cases ops with
          | nil => exact hrest
          | cons => exact hrest.1
        rw [snapshot_redact] at hnow
        exact hnow)
      refine ⟨hconcealed, fun r₂ hr₂ => ?_⟩
      rw [hfollow] at hr₂
      cases hr₂
      exact (ih (hsim hconcealed) hwf' hops).1 hrest
    · rintro ⟨hconcealed, hrest⟩
      exact ⟨hcanonical hwf.live h, r', hfollow,
        (ih (hsim hconcealed) hwf' hops).2 (hrest r' hfollow)⟩

/-- A replica built from the redacted snapshot of any owner follows every later run, redacted event
by redacted event, exactly when nothing is appended to a hidden stream and every stream is opened on
the same stored text. -/
theorem redacted_replica_converges_iff (policy : PropPolicy) {owner : Dom} (h : owner.Wf)
    {ops : List OwnerOp} (hops : ∀ op ∈ ops, op.Valid) :
    ConvergesRedacted policy owner h.live (fromSnapshot ((owner.snapshot h.live).redact policy)) ops ↔
      RunConcealed policy owner h.live (fromSnapshot ((owner.snapshot h.live).redact policy)) ops := by
  apply Sim.convergesRedacted_iff _ h hops
  rw [snapshot_redact]
  exact Sim.fromSnapshot h.live.hide

/-- Hides `text` and nothing else. -/
def textPolicy : PropPolicy where
  redacts _ key := key == .known .text
  redactsContent _ := false

theorem Wf.withHighWater (highWater : Nat) : (Dom.withHighWater highWater).Wf where
  live p hp := by cases hp
  slotted h hh := by
    have hle : h ≤ 4 := by
      by_contra hlt
      have hne : ∀ k : Handle, k ≤ 4 → h ≠ k := by
        rintro k hk rfl
        exact hlt hk
      apply hh
      dsimp only [Dom.withHighWater]
      rw [if_neg (hne root (by decide)), if_neg (hne Dom.meta (by decide)),
        if_neg (hne body (by decide)), if_neg (hne queues (by decide))]
    exact hle.trans (le_max_right _ _)

theorem zero_lt_ulid : 0 < 2 ^ 128 := by decide

def sampleCause : EntryId := ⟨0, zero_lt_ulid⟩

theorem redacted_replica_converges_new :
    ConvergesRedacted textPolicy .new (Wf.withHighWater 4).live
      (fromSnapshot ((Dom.new.snapshot (Wf.withHighWater 4).live).redact textPolicy))
      [.streamOpen sampleCause body (.known .text),
        .streamOpen sampleCause body (.known .status), .streamAppend sampleCause 2 "a"] := by
  apply (redacted_replica_converges_iff textPolicy (Wf.withHighWater 4) _).2
  · refine ⟨⟨by simp [Silent], ?_⟩, fun _ hr => ?_⟩
    · intro sid handle prop hopens _
      cases hopens
      rfl
    cases hr
    refine ⟨⟨by simp [Silent], ?_⟩, fun _ hr => ?_⟩
    · intro sid handle prop hopens _
      cases hopens
      rfl
    cases hr
    refine ⟨⟨?_, by simp [AlignedRedacted, opens]⟩, fun _ _ => trivial⟩
    intro cause sid text stream heq hstream hhidden
    cases heq
    cases hstream
    exact absurd hhidden (by decide)
  · simp [OwnerOp.Valid]

/-- An owner with an open stream on a hidden property. -/
def hiddenStream : Dom := (Dom.new.perform (.streamOpen sampleCause body (.known .text))).1

theorem hiddenStream_wf : hiddenStream.Wf := (Wf.withHighWater 4).perform trivial

/-- The redacted snapshot counts the bytes that the replica was not sent. -/
theorem hidden_append_diverges :
    ¬ ConvergesRedacted textPolicy hiddenStream hiddenStream_wf.live
      (fromSnapshot ((hiddenStream.snapshot hiddenStream_wf.live).redact textPolicy))
      [.streamAppend sampleCause 1 "secret"] := by
  rintro ⟨-, replica, hfollow, hcanonical⟩
  cases hfollow
  have hstreams := congrArg (fun c => c.streams.map (·.2.appendedBytes)) hcanonical
  exact absurd hstreams (by decide)

end Dom

end OhMyPi
