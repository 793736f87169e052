import OhMyPi.Dom.History
import OhMyPi.Dom.RedactedReplica
import OhMyPi.Dom.Wire

/-! Snapshots on the wire. A snapshot crosses as its bytes, in which structured JSON stands verbatim;
scalars are read back. -/

namespace OhMyPi

open KeyedList

section

variable (serde : WireSerde)

/-- Text of an object or an array. -/
def isStructured (text : String) : Bool :=
  match text.toList.head? with
  | some '\x7b' | some '[' => true
  | _ => false

/-- A value as `Snapshot::from_bytes` reads it. -/
def Value.settleScalar : Value → Value
  | .json raw => if isStructured raw then .json raw else settle serde (.json raw)
  | v => v.settle serde

/-- The value is read from a snapshot with the text that it was written with. -/
def Value.Survives : Value → Prop
  | .json raw => isStructured raw = true ∨ ReadsBack serde (.json raw)
  | v => v.ReadsBack serde

/-- `serde_json` writes raw values verbatim, and others so that they can be told from objects and
arrays and are read back. -/
def WireSerde.PrintsValue : Value → Prop
  | .json raw => serde.write (.raw raw) = raw
  | v => isStructured (v.text serde) = false ∧ serde.value (v.text serde) = v.serialize.reread serde

/-- What the bytes of a snapshot say of one node. -/
def Node.encode (node : Node) : EncodedNodeData where
  tag := node.tag
  props := KeyedList.mapValues (Value.text serde) (KeyedList.sort node.props)
  kids := node.kids
  content := node.content

/-- What the bytes of a snapshot say, as `from_bytes` reads them. -/
def Snapshot.encode (s : Snapshot) : EncodedSnapshot where
  highWater := s.highWater
  nextSid := s.nextSid
  nodes := (List.range s.highWater).filterMap fun i => (s.nodes (i + 1)).map fun node =>
    { handle := i + 1, parent := s.parents (i + 1), node := node.encode serde
      pos := Nat.succ_pos i }
  streams := s.streams

/-- A node as it is read back. -/
def Node.settled (node : Node) : Node :=
  { node with props := KeyedList.mapValues (Value.settleScalar serde) (KeyedList.sort node.props) }

end

variable {serde : WireSerde}

theorem property_of_structured {text : String} (h : isStructured text = true) (key : PropKey) :
    serde.property (key, text) = .ok (key, .json text) := by
  rw [isStructured] at h
  rw [SnapshotSerde.property]
  split at h
  · next heq => simp only [heq]
  · next heq => simp only [heq]
  · cases h

theorem property_of_plain {text : String} (h : isStructured text = false) {json : Json}
    (hjson : serde.value text = some json) (key : PropKey) :
    serde.property (key, text) = .ok (key, .deserialize serde json) := by
  have hbrace : text.toList.head? ≠ some '\x7b' := by
    intro heq
    rw [isStructured, heq] at h
    cases h
  have hbracket : text.toList.head? ≠ some '[' := by
    intro heq
    rw [isStructured, heq] at h
    cases h
  simp only [SnapshotSerde.property, hjson]
  rfl

/-- The text of a value is read as the settled value, which has the same text. -/
theorem Value.Survives.spec {v : Value} (h : v.Survives serde) (hprints : serde.PrintsValue v)
    (key : PropKey) : serde.property (key, v.text serde) = .ok (key, v.settleScalar serde) ∧
      (v.settleScalar serde).text serde = v.text serde := by
  have hread : ∀ v : Value, v.ReadsBack serde → isStructured (v.text serde) = false →
      serde.value (v.text serde) = v.serialize.reread serde →
      serde.property (key, v.text serde) = .ok (key, v.settle serde) ∧
        (v.settle serde).text serde = v.text serde := by
    intro v hback hplain hvalue
    obtain ⟨json, hjson, hsettle, htext⟩ := hback.spec
    refine ⟨?_, htext⟩
    rw [hsettle]
    exact property_of_plain hplain (hvalue.trans hjson) key
  cases v with
  | json raw =>
    have htext : text serde (.json raw) = raw := hprints
    by_cases hstructured : isStructured raw = true
    · rw [settleScalar, if_pos hstructured, htext]
      exact ⟨property_of_structured hstructured key, rfl⟩
    · have hback : ReadsBack serde (.json raw) := h.resolve_left hstructured
      rw [settleScalar, if_neg hstructured]
      apply hread _ hback
      · rw [htext]
        exact Bool.not_eq_true _ ▸ hstructured
      · rw [htext]
        rfl
  | null => exact hread .null h hprints.1 hprints.2
  | bool b => exact hread (.bool b) h hprints.1 hprints.2
  | int n => exact hread (.int n) h hprints.1 hprints.2
  | float bits => exact hread (.float bits) h hprints.1 hprints.2
  | str text => exact hread (.str text) h hprints.1 hprints.2

theorem Node.decode_encode {node : Node} (h : ∀ p ∈ node.props, p.2.Survives serde)
    (hprints : ∀ p ∈ node.props, serde.PrintsValue p.2) :
    (node.encode serde).decode serde.toSnapshotSerde = .ok (node.settled serde) := by
  have hprops : ∀ props : List (PropKey × Value), (∀ p ∈ props, p ∈ node.props) →
      (KeyedList.mapValues (Value.text serde) props).mapM serde.property =
        .ok (KeyedList.mapValues (Value.settleScalar serde) props) := by
    intro props hmem
    induction props with
    | nil => rfl
    | cons p props ih =>
      obtain ⟨hp, hrest⟩ := List.forall_mem_cons.1 hmem
      have hvalue := ((h p hp).spec (hprints p hp) p.1).1
      change List.mapM _ ((p.1, p.2.text serde) :: KeyedList.mapValues (Value.text serde) props) = _
      rw [List.mapM_cons, hvalue, ih hrest]
      rfl
  rw [EncodedNodeData.decode, Node.encode, hprops]
  · rfl
  · intro p hp
    exact (List.perm_insertionSort _ node.props).mem_iff.1 hp

/-- What passes every check is accepted. -/
theorem EncodedSnapshot.decode_of_accepted {serde : SnapshotSerde} {encoded : EncodedSnapshot}
    {slots : Slots} (hlimit : encoded.highWater ≤ snapshotHighWaterLimit)
    (hfold : encoded.nodes.foldlM (Slots.place serde (max encoded.highWater 4)) {} = .ok slots)
    (hroots : slots.canonicalRoots = true)
    (hconsistent : ∀ i < max encoded.highWater 4, slots.consistentAt (i + 1) = true)
    (hbound : ∀ p ∈ encoded.streams, slots.nodes p.2.node ≠ none) :
    ∃ s, encoded.decode serde = .ok s ∧ s.highWater = max encoded.highWater 4 ∧
      s.nextSid = encoded.nextSid ∧ s.parents = slots.parents ∧ s.streams = encoded.streams ∧
      s.nodes = materializeAll slots.nodes encoded.streams := by
  have hall : (List.range (max encoded.highWater 4)).all
      (fun i => slots.consistentAt (i + 1)) = true := by
    rw [List.all_eq_true]
    exact fun i hi => hconsistent i (List.mem_range.1 hi)
  have hdecode : encoded.decode serde =
      if bound : ∀ p ∈ encoded.streams, slots.nodes p.2.node ≠ none then
        .ok { highWater := max encoded.highWater 4
              nextSid := encoded.nextSid
              nodes := materializeAll slots.nodes encoded.streams
              parents := slots.parents
              streams := encoded.streams
              bound := fun p hp => by
                rw [← Option.isSome_iff_ne_none, materializeAll_isSome, Option.isSome_iff_ne_none]
                exact bound p hp }
      else .error .inconsistentStructure := by
    have hmark : ¬ encoded.highWater > snapshotHighWaterLimit := Nat.not_lt.2 hlimit
    simp only [decode, if_neg hmark, hfold]
    change (if (!slots.canonicalRoots) = true then _ else _) = _
    simp only [hroots, hall]
    rfl
  rw [dif_pos hbound] at hdecode
  exact ⟨_, hdecode, rfl, rfl, rfl, rfl, rfl⟩

namespace Snapshot

variable {s : Snapshot}

/-- The slots after the nodes up to a handle are placed. -/
def slotsUpTo (serde : WireSerde) (s : Snapshot) (n : Nat) : Slots where
  nodes h := if 0 < h ∧ h ≤ n then (s.nodes h).map (Node.settled serde) else none
  parents h := if 0 < h ∧ h ≤ n ∧ s.nodes h ≠ none then s.parents h else none

variable (hvalues : ∀ h n, s.nodes h = some n → ∀ p ∈ n.props,
    p.2.Survives serde ∧ serde.PrintsValue p.2)
  (hparents : ∀ h p, s.parents h = some p → p ≤ s.highWater)

theorem slotsUpTo_parents_succ (n : Nat) {node : Node} (hnode : s.nodes (n + 1) = some node) :
    (slotsUpTo serde s (n + 1)).parents = ((s.parents (n + 1)).map fun parent =>
      Function.update (slotsUpTo serde s n).parents (n + 1) (some parent)).getD
        (slotsUpTo serde s n).parents := by
  funext h
  by_cases hh : h = n + 1
  · subst hh
    cases hparent : s.parents (n + 1) with
    | none => simp [slotsUpTo, hparent]
    | some parent => simp [slotsUpTo, hparent, hnode]
  · have hle : h ≤ n + 1 ↔ h ≤ n := by
      have hne : ∀ k : Nat, k ≠ n + 1 → (k ≤ n + 1 ↔ k ≤ n) := by omega
      exact hne h hh
    cases s.parents (n + 1) with
    | none => simp [slotsUpTo, hle]
    | some parent => simp [slotsUpTo, hle, Function.update_of_ne hh]

theorem slotsUpTo_nodes_succ (n : Nat) {node : Node} (hnode : s.nodes (n + 1) = some node) :
    (slotsUpTo serde s (n + 1)).nodes =
      Function.update (slotsUpTo serde s n).nodes (n + 1) (some (node.settled serde)) := by
  funext h
  by_cases hh : h = n + 1
  · subst hh
    simp [slotsUpTo, hnode]
  · have hle : h ≤ n + 1 ↔ h ≤ n := by
      have hne : ∀ k : Nat, k ≠ n + 1 → (k ≤ n + 1 ↔ k ≤ n) := by omega
      exact hne h hh
    simp [slotsUpTo, hle, Function.update_of_ne hh]

theorem slotsUpTo_succ_of_none (n : Nat) (hnode : s.nodes (n + 1) = none) :
    slotsUpTo serde s (n + 1) = slotsUpTo serde s n := by
  have hsplit : ∀ h : Nat, h ≤ n + 1 ↔ h ≤ n ∨ h = n + 1 := by omega
  rw [slotsUpTo, slotsUpTo]
  congr 1
  · funext h
    by_cases hh : h = n + 1
    · subst hh
      simp [hnode]
    · simp [hsplit, hh]
  · funext h
    by_cases hh : h = n + 1
    · subst hh
      simp [hnode]
    · simp [hsplit, hh]

include hvalues hparents

theorem place_encode {n : Nat} (hn : n < s.highWater) {node : Node}
    (hnode : s.nodes (n + 1) = some node) :
    (slotsUpTo serde s n).place serde.toSnapshotSerde s.highWater
        { handle := n + 1, parent := s.parents (n + 1), node := node.encode serde
          pos := Nat.succ_pos n } = .ok (slotsUpTo serde s (n + 1)) := by
  have hdecode := Node.decode_encode (fun p hp => (hvalues _ _ hnode p hp).1)
    (fun p hp => (hvalues _ _ hnode p hp).2)
  have hfree : (slotsUpTo serde s n).nodes (n + 1) = none := by simp [slotsUpTo]
  have hlink : (slotsUpTo serde s n).link s.highWater
      { handle := n + 1, parent := s.parents (n + 1), node := node.encode serde
        pos := Nat.succ_pos n } = .ok (slotsUpTo serde s (n + 1)).parents := by
    rw [slotsUpTo_parents_succ n hnode, Slots.link]
    cases hparent : s.parents (n + 1) with
    | none => rfl
    | some parent => exact if_neg (Nat.not_lt.2 (hparents _ _ hparent))
  have hslots : slotsUpTo serde s (n + 1) =
      ⟨Function.update (slotsUpTo serde s n).nodes (n + 1) (some (node.settled serde)),
        (slotsUpTo serde s (n + 1)).parents⟩ := by
    rw [← slotsUpTo_nodes_succ n hnode]
  rw [Slots.place]
  refine Except.ite_throw_eq_ok.2 ⟨Nat.not_lt.2 hn, Except.ite_throw_eq_ok.2 ⟨by simp [hfree], ?_⟩⟩
  refine Except.bind_eq_ok.2 ⟨_, hlink, Except.bind_eq_ok.2 ⟨_, hdecode, ?_⟩⟩
  rw [hslots]
  rfl

theorem foldlM_encode {n : Nat} (hn : n ≤ s.highWater) :
    ((List.range n).filterMap fun i => (s.nodes (i + 1)).map fun node =>
      ({ handle := i + 1, parent := s.parents (i + 1), node := node.encode serde
         pos := Nat.succ_pos i } : EncodedNode)).foldlM
        (Slots.place serde.toSnapshotSerde s.highWater) {} = .ok (slotsUpTo serde s n) := by
  induction n with
  | zero =>
    have hempty : slotsUpTo serde s 0 = {} := by
      have hnot : ∀ h : Nat, ¬ (0 < h ∧ h ≤ 0) := by omega
      have hnot' : ∀ (h : Nat) (p : Prop), ¬ (0 < h ∧ h ≤ 0 ∧ p) := fun h p hh =>
        hnot h ⟨hh.1, hh.2.1⟩
      rw [slotsUpTo]
      congr 1
      · funext h
        exact if_neg (hnot h)
      · funext h
        exact if_neg (hnot' h _)
    rw [hempty]
    rfl
  | succ n ih =>
    rw [List.range_succ, List.filterMap_append, List.foldlM_append, ih (Nat.le_of_succ_le hn)]
    cases hnode : s.nodes (n + 1) with
    | none =>
      rw [slotsUpTo_succ_of_none n hnode]
      simp [hnode]
    | some node =>
      simp only [List.filterMap_cons, hnode, Option.map_some, List.filterMap_nil]
      refine Except.bind_eq_ok.2 ⟨_, rfl, ?_⟩
      rw [List.foldlM_cons, place_encode hvalues hparents hn hnode]
      rfl

omit hvalues hparents

/-- All nodes placed. -/
def settledSlots (serde : WireSerde) (s : Snapshot) : Slots :=
  ⟨fun h => (s.nodes h).map (Node.settled serde), s.parents⟩

section

variable (hvalid : s.Valid) (htree : (Dom.fromSnapshot s).skeleton.Tree)

theorem nodes_ne_none {h : Handle} : (Dom.fromSnapshot s).skeleton.tag h ≠ none ↔ s.nodes h ≠ none :=
  Dom.skeleton_tag_ne_none

theorem children_of_nodes {h : Handle} {node : Node} (hnode : s.nodes h = some node) :
    (Dom.fromSnapshot s).skeleton.children h = node.kids := by
  change ((s.nodes h).map Node.kids).getD [] = node.kids
  rw [hnode]
  rfl

include htree

theorem parents_le {h p : Handle} (hp : s.parents h = some p) : p ≤ s.highWater :=
  htree.bounded (htree.parent_live hp)

theorem four_le : 4 ≤ s.highWater := by
  apply htree.bounded (h := Dom.queues)
  rw [htree.tag_queues]
  exact Option.some_ne_none _

theorem canonicalRoots_settledSlots : (settledSlots serde s).canonicalRoots = true := by
  have htag : ∀ h, ((settledSlots serde s).nodes h).map Node.tag =
      (Dom.fromSnapshot s).skeleton.tag h := by
    intro h
    exact Option.map_map ..
  have hkids : ((settledSlots serde s).nodes Dom.root).map Node.kids =
      some [Dom.meta, Dom.body, Dom.queues] := by
    obtain ⟨node, hnode⟩ := Option.ne_none_iff_exists'.1 (nodes_ne_none.1 htree.root_live)
    have hkids := children_of_nodes hnode
    rw [htree.top] at hkids
    change ((s.nodes Dom.root).map (Node.settled serde)).map Node.kids = _
    rw [hnode, hkids]
    rfl
  have hparent : ∀ h, h = Dom.meta ∨ h = Dom.body ∨ h = Dom.queues →
      (settledSlots serde s).parents h = some Dom.root := fun h hh => htree.parent_top.2 hh
  have hroot : (settledSlots serde s).parents Dom.root = none := htree.root_parent
  simp [Slots.canonicalRoots, htag, hkids, hparent, hroot, htree.tag_root, htree.tag_meta,
    htree.tag_body, htree.tag_queues]

theorem consistentAt_settledSlots (h : Handle) : (settledSlots serde s).consistentAt h = true := by
  simp only [Slots.consistentAt, settledSlots]
  cases hnode : s.nodes h with
  | none => rfl
  | some node =>
    have hkids : node.kids.all (fun child => ((s.nodes child).map (Node.settled serde)).isSome &&
        s.parents child == some h) = true := by
      rw [List.all_eq_true]
      intro child hchild
      rw [← children_of_nodes hnode] at hchild
      have hparent : s.parents child = some h := htree.mem_kids.1 hchild
      have hlive := nodes_ne_none.1 (htree.live_of_mem_kids hchild)
      simp [hparent, Option.isSome_iff_ne_none, hlive]
    simp only [Option.map_some, Bool.and_eq_true]
    refine ⟨hkids, ?_⟩
    cases hparent : s.parents h with
    | none => rfl
    | some parent =>
      have hlive := nodes_ne_none.1 (htree.parent_live hparent)
      simp [Option.isSome_iff_ne_none, hlive]

include hvalid

theorem slotsUpTo_highWater : slotsUpTo serde s s.highWater = settledSlots serde s := by
  have hrange : ∀ h, s.nodes h ≠ none → 0 < h ∧ h ≤ s.highWater := fun h hh =>
    ⟨htree.pos (nodes_ne_none.2 hh), hvalid.slotted h hh⟩
  rw [slotsUpTo, settledSlots]
  congr 1
  · funext h
    cases hnode : s.nodes h with
    | none => exact ite_self _
    | some node => rw [if_pos (hrange h (by simp [hnode]))]
  · funext h
    cases hparent : s.parents h with
    | none => exact ite_self _
    | some parent =>
      have hlive := nodes_ne_none.1 (htree.linked hparent)
      rw [if_pos ⟨(hrange h hlive).1, (hrange h hlive).2, hlive⟩]

/-- The bytes of a tree's snapshot are accepted. -/
theorem decode_encode (hlimit : s.highWater ≤ snapshotHighWaterLimit)
    (hvalues : ∀ h n, s.nodes h = some n → ∀ p ∈ n.props,
      p.2.Survives serde ∧ serde.PrintsValue p.2) :
    ∃ s', (s.encode serde).decode serde.toSnapshotSerde = .ok s' ∧ s'.highWater = s.highWater ∧
      s'.nextSid = s.nextSid ∧ s'.parents = s.parents ∧ s'.streams = s.streams ∧
      s'.nodes = materializeAll (settledSlots serde s).nodes s.streams := by
  have hmax : max s.highWater 4 = s.highWater := Nat.max_eq_left (four_le htree)
  have hbound : ∀ p ∈ s.streams, (settledSlots serde s).nodes p.2.node ≠ none := by
    intro p hp hnone
    exact s.bound p hp (Option.map_eq_none_iff.1 hnone)
  have hfold := foldlM_encode hvalues (fun _ _ => parents_le htree) (Nat.le_refl s.highWater)
  rw [slotsUpTo_highWater hvalid htree] at hfold
  have hmark : max (s.encode serde).highWater 4 = s.highWater := hmax
  have hplaced : (s.encode serde).nodes.foldlM
      (Slots.place serde.toSnapshotSerde (max (s.encode serde).highWater 4)) {} =
        .ok (settledSlots serde s) := by
    rw [hmark]
    exact hfold
  obtain ⟨s', hs', hmark', hsid, hparents, hstreams, hnodes⟩ :=
    EncodedSnapshot.decode_of_accepted hlimit hplaced (canonicalRoots_settledSlots htree)
      (fun i _ => consistentAt_settledSlots htree (i + 1)) hbound
  exact ⟨s', hs', hmark'.trans hmark, hsid, hparents, hstreams, hnodes⟩

end

end Snapshot

/-! ## What is read back is the same snapshot -/

section

variable (serde)

/-- The text of a value in the value's place. -/
def Value.rendered (v : Value) : Value := .json (v.text serde)

/-- What a snapshot of the tree prints. -/
def Dom.rendered (dom : Dom) : Canonical := dom.canonical.mapValues (Value.rendered serde)

end

section

variable (hraw : ∀ text, serde.write (.raw text) = text)

include hraw

theorem Value.rendered_rendered (v : Value) : (v.rendered serde).rendered serde = v.rendered serde :=
  congrArg Value.json (hraw (v.text serde))

/-- Trees that agree once their values are printed have the same snapshot. -/
theorem Dom.rendered_eq_of_sim {dom dom' : Dom}
    (h : Sim (dom.mapValues (Value.rendered serde)) (dom'.mapValues (Value.rendered serde))) :
    dom'.rendered serde = dom.rendered serde := by
  have htwice : ∀ dom : Dom, (dom.mapValues (Value.rendered serde)).mapValues (Value.rendered serde) =
      dom.mapValues (Value.rendered serde) := by
    intro dom
    have hnode : Node.mapValues (Value.rendered serde) ∘ Node.mapValues (Value.rendered serde) =
        Node.mapValues (Value.rendered serde) := by
      funext node
      simp only [Function.comp_def, Node.mapValues, KeyedList.mapValues, List.map_map,
        Value.rendered_rendered hraw]
    simp only [Dom.mapValues, Option.map_map, hnode]
  rw [rendered, rendered, ← canonical_mapValues (htwice dom), ← canonical_mapValues (htwice dom'),
    h.canonical_eq]

end

theorem Value.Survives.rendered_settleScalar {v : Value} (h : v.Survives serde)
    (hprints : serde.PrintsValue v) : (v.settleScalar serde).rendered serde = v.rendered serde :=
  congrArg Value.json (h.spec hprints (.known .text)).2

/-- The properties of a node as they are read back, with the texts of its streams. -/
theorem valuesAt_rendered_settled {props texts : List (PropKey × Value)}
    (hvalues : ∀ p ∈ props, p.2.Survives serde ∧ serde.PrintsValue p.2)
    (hbuilt : assignAll texts props = props) (key : PropKey) :
    valuesAt key (KeyedList.mapValues (Value.rendered serde)
        (assignAll texts (KeyedList.mapValues (Value.settleScalar serde) (KeyedList.sort props)))) =
      valuesAt key (KeyedList.mapValues (Value.rendered serde) props) := by
  have hsettled : KeyedList.mapValues (Value.rendered serde)
      (KeyedList.mapValues (Value.settleScalar serde) (KeyedList.sort props)) =
        KeyedList.sort (KeyedList.mapValues (Value.rendered serde) props) := by
    rw [← mapValues_sort, KeyedList.mapValues, KeyedList.mapValues, KeyedList.mapValues, List.map_map]
    apply List.map_congr_left
    intro p hp
    obtain ⟨hsurvives, hprints⟩ := hvalues p ((List.perm_insertionSort _ props).mem_iff.1 hp)
    exact congrArg (Prod.mk p.1) (hsurvives.rendered_settleScalar hprints)
  rw [mapValues_assignAll, hsettled]
  conv_rhs => rw [← hbuilt, mapValues_assignAll]
  apply valuesAt_assignAll_congr
  intro key
  exact valuesAt_sort key _

namespace Snapshot

variable {s s' : Snapshot}

theorem sim_rendered (hvalid : s.Valid)
    (hvalues : ∀ h n, s.nodes h = some n → ∀ p ∈ n.props,
      p.2.Survives serde ∧ serde.PrintsValue p.2)
    (hhighWater : s'.highWater = s.highWater) (hnextSid : s'.nextSid = s.nextSid)
    (hparents : s'.parents = s.parents) (hstreams : s'.streams = s.streams)
    (hnodes : s'.nodes = materializeAll (settledSlots serde s).nodes s.streams) :
    Dom.Sim ((Dom.fromSnapshot s).mapValues (Value.rendered serde))
      ((Dom.fromSnapshot s').mapValues (Value.rendered serde)) where
  parents := hparents
  highWater := hhighWater
  streams := congrArg OrdMap.ofList hstreams
  nextSid := hnextSid
  nodes := by
    intro h
    change Option.Rel _ ((s.nodes h).map _) ((s'.nodes h).map _)
    rw [hnodes, materializeAll_apply]
    change Option.Rel _ _ ((((s.nodes h).map (Node.settled serde)).map _).map _)
    have hbuilt := congrFun hvalid.built h
    rw [materializeAll_apply] at hbuilt
    cases hnode : s.nodes h with
    | none => exact .none
    | some node =>
      rw [hnode] at hbuilt
      have hprops : assignAll (textsAt s.streams h) node.props = node.props :=
        congrArg Node.props (Option.some.inj hbuilt)
      refine .some ⟨rfl, rfl, rfl, fun key => .inl ?_⟩
      exact valuesAt_rendered_settled (hvalues h node hnode) hprops key

end Snapshot

/-! ## Events -/

/-- The snapshots that there are, by the bytes they carry: those built from a tree print
themselves, those received keep what they were read from. -/
inductive Snapshot.Carries (serde : WireSerde) (bytes : List UInt8) (s : Snapshot) : Prop where
  | built : s.Valid → (Dom.fromSnapshot s).skeleton.Tree → s.highWater ≤ snapshotHighWaterLimit →
    (∀ h n, s.nodes h = some n → ∀ p ∈ n.props, p.2.Survives serde) →
    serde.encoded bytes = some (s.encode serde) → s.Carries serde bytes
  | received : Snapshot.fromBytes serde.toSnapshotSerde bytes = .ok s → s.Carries serde bytes

/-- The events that the codec is made for. -/
def Event.Carried (serde : WireSerde) (asBytes : Snapshot → List UInt8) : Event → Prop
  | .patch cause prior label ops => (∀ op ∈ ops, ∀ h ∈ op.handles, Handle.Valid h) ∧
    (∀ op ∈ ops, ∀ v ∈ op.values, v.ReadsBack serde) ∧
    ∀ json, (serializePatch cause prior label ops).reread serde = some json → json.depth ≤ 127
  | .reset s => s.Carries serde (asBytes s)
  | .stream _ _ _ node _ _ => ∀ h ∈ node, Handle.Valid h

/-- `serde_json` reads what it prints for this event. A raw value is the document without the
blanks around it. -/
structure WireSerde.Prints.At (serde : WireSerde) (asBytes : Snapshot → List UInt8) (event : Event) :
    Prop where
  fields : ∀ text, (∀ s, event = .reset s → serde.rawValue (asBytes s) = some text) →
    serde.Prints (event.outgoing text)
  values : ∀ s, event = .reset s → ∀ h n, s.nodes h = some n → ∀ p ∈ n.props, serde.PrintsValue p.2
  trimmed : ∀ s, event = .reset s → serde.encoded (asBytes s) ≠ none →
    ∃ text, serde.rawValue (asBytes s) = some text ∧
      serde.encoded (Text.bytes text) = serde.encoded (asBytes s)

/-- The event is encoded and decoded to one that every replica takes to the same snapshot. -/
def Event.RoundTrips (serde : WireSerde) (asBytes : Snapshot → List UInt8) (event : Event) : Prop :=
  ∃ bytes event', encodeEvent serde asBytes event = some bytes ∧ decodeEvent serde bytes = .ok event' ∧
    ∀ replica : Dom, (replica.applyEvent event').map (Dom.rendered serde) =
      (replica.applyEvent event).map (Dom.rendered serde)

theorem Op.rendered_settle {op : Op} (h : ∀ v ∈ op.values, v.ReadsBack serde) :
    (op.mapValues (Value.settle serde)).mapValues (Value.rendered serde) =
      op.mapValues (Value.rendered serde) := by
  have hvalue : ∀ v : Value, v.ReadsBack serde → (v.settle serde).rendered serde = v.rendered serde := by
    intro v hv
    obtain ⟨-, -, -, htext⟩ := hv.spec
    exact congrArg Value.json htext
  cases op with
  | ins parent after node =>
    have hprops : KeyedList.mapValues (Value.rendered serde)
        (KeyedList.mapValues (Value.settle serde) node.props) =
          KeyedList.mapValues (Value.rendered serde) node.props := by
      rw [KeyedList.mapValues, KeyedList.mapValues, KeyedList.mapValues, List.map_map]
      apply List.map_congr_left
      intro p hp
      exact congrArg (Prod.mk p.1) (hvalue p.2 (h p.2 (List.mem_map_of_mem hp)))
    simp only [mapValues, NodeSpec.mapValues, hprops]
  | rm => rfl
  | set handle prop value => exact congrArg (Op.set handle prop) (hvalue value (h value (by simp [values])))
  | mv => rfl

/-- A patch whose values were read back has the same effect, up to how values are held. -/
theorem applyEvent_settled (replica : Dom) (cause : EntryId) (prior : Option EntryId)
    (label : Option String) {ops : List Op} (h : ∀ op ∈ ops, ∀ v ∈ op.values, v.ReadsBack serde) :
    (replica.applyEvent (.patch cause prior label (ops.map (Op.mapValues (Value.settle serde))))).map
        (Dom.rendered serde) =
      (replica.applyEvent (.patch cause prior label ops)).map (Dom.rendered serde) := by
  have hops : (ops.map (Op.mapValues (Value.settle serde))).map (Op.mapValues (Value.rendered serde)) =
      ops.map (Op.mapValues (Value.rendered serde)) := by
    rw [List.map_map]
    apply List.map_congr_left
    intro op hop
    exact Op.rendered_settle (h op hop)
  have hrendered : (replica.applyOps (ops.map (Op.mapValues (Value.settle serde)))).rendered serde =
      (replica.applyOps ops).rendered serde := by
    apply Dom.canonical_mapValues
    rw [Dom.mapValues_applyOps, Dom.mapValues_applyOps, hops]
  have hvalidate : replica.validateOps (ops.map (Op.mapValues (Value.settle serde))) =
      replica.validateOps ops := Dom.validateFrom_mapValues ..
  simp only [Dom.applyEvent, Dom.applyWithPrior, Dom.apply, hvalidate]
  cases replica.validateOps ops with
  | error e => rfl
  | ok minted => exact congrArg Except.ok hrendered

/-- What is decoded is the snapshot of the envelope. -/
theorem decode_reset {text : String} {s : Snapshot}
    (hprints : serde.Prints (Event.outgoing text (.reset s)))
    (hencoded : serde.encoded (Text.bytes text) ≠ none) :
    decodeEvent serde (Text.bytes (serde.write (.object (Event.outgoing text (.reset s))))) =
      match Snapshot.fromBytes serde.toSnapshotSerde (Text.bytes text) with
      | .error e => .error (.snapshot e)
      | .ok s' => .ok (.reset s') := by
  have hkind : serde.read (Text.bytes (serde.write (.string "snapshot@1"))) =
      some (.string "snapshot@1") :=
    hprints.read ("kind", _) (by simp [Event.outgoing]) (by simp [Doc.reread, Json.depth])
  have hnull : serde.read (Text.bytes text) ≠ some .null := hprints.record _ hencoded
  have hincoming := Incoming.deserialize_pair hprints.envelope hkind (by rwa [hprints.raw])
  rw [decodeEvent, hincoming, hprints.raw]
  rfl

theorem Snapshot.Carries.decode {asBytes : Snapshot → List UInt8} {s : Snapshot}
    (h : s.Carries serde (asBytes s)) (hraw : ∀ text, serde.write (.raw text) = text)
    (hprints : ∀ h n, s.nodes h = some n → ∀ p ∈ n.props, serde.PrintsValue p.2) :
    ∀ bytes, serde.encoded bytes = serde.encoded (asBytes s) →
      ∃ s', Snapshot.fromBytes serde.toSnapshotSerde bytes = .ok s' ∧
        (Dom.fromSnapshot s').rendered serde = (Dom.fromSnapshot s).rendered serde := by
  intro bytes hbytes
  cases h with
  | received h =>
    refine ⟨s, ?_, rfl⟩
    rw [Snapshot.fromBytes, hbytes]
    exact h
  | built hvalid htree hlimit hsurvive hencoded =>
    have hvalues : ∀ h n, s.nodes h = some n → ∀ p ∈ n.props,
        p.2.Survives serde ∧ serde.PrintsValue p.2 := fun h n hn p hp =>
      ⟨hsurvive h n hn p hp, hprints h n hn p hp⟩
    obtain ⟨s', hs', hmark, hsid, hparents, hstreams, hnodes⟩ :=
      decode_encode hvalid htree hlimit hvalues
    refine ⟨s', ?_, ?_⟩
    · rw [Snapshot.fromBytes, hbytes, hencoded]
      exact hs'
    · apply Dom.rendered_eq_of_sim hraw
      exact sim_rendered hvalid hvalues hmark hsid hparents hstreams hnodes

theorem Snapshot.Carries.encoded {bytes : List UInt8} {s : Snapshot} (h : s.Carries serde bytes) :
    serde.encoded bytes ≠ none := by
  intro hnone
  cases h with
  | received h =>
    rw [Snapshot.fromBytes, hnone] at h
    cases h
  | built _ _ _ _ hencoded =>
    rw [hencoded] at hnone
    cases hnone

/-- Events that the codec is made for make the round trip. -/
theorem Event.Carried.roundTrips {asBytes : Snapshot → List UInt8} {event : Event}
    (h : event.Carried serde asBytes) (hprints : WireSerde.Prints.At serde asBytes event) :
    event.RoundTrips serde asBytes := by
  cases event with
  | patch cause prior label ops =>
    obtain ⟨hhandles, hvalues, hdepth⟩ := h
    have hfields := hprints.fields "" fun _ heq => by cases heq
    refine ⟨_, _, rfl, decode_patch hfields hdepth hhandles hvalues, fun replica => ?_⟩
    exact applyEvent_settled replica cause prior label hvalues
  | reset s =>
    have hcarries : s.Carries serde (asBytes s) := h
    obtain ⟨text, hraw, htext⟩ := hprints.trimmed s rfl hcarries.encoded
    have hfields := hprints.fields text fun _ heq => by
      cases heq
      exact hraw
    obtain ⟨s', hs', hrendered⟩ := hcarries.decode hfields.raw (hprints.values s rfl) _ htext
    have hdecode := decode_reset hfields (htext ▸ hcarries.encoded)
    rw [hs'] at hdecode
    refine ⟨_, .reset s', ?_, hdecode, fun replica => ?_⟩
    · rw [encodeEvent, hraw]
      rfl
    · exact congrArg Except.ok hrendered
  | stream cause sid op node prop text =>
    have hfields := hprints.fields "" fun _ heq => by cases heq
    exact ⟨_, _, rfl, decode_stream hfields h, fun replica => rfl⟩

/-! ### Two events -/

namespace Doc

mutual

/-- How documents are printed that have no floats and no text to be escaped. -/
def print : Doc → String
  | null => "null"
  | bool true => "true"
  | bool false => "false"
  | posInt n => toString n
  | negInt n => toString n
  | float _ => "null"
  | string text => "\"" ++ text ++ "\""
  | raw text => text
  | array items => "[" ++ printItems items ++ "]"
  | object fields => "\x7b" ++ printFields fields ++ "\x7d"

def printItems : List Doc → String
  | [] => ""
  | [item] => item.print
  | item :: items => item.print ++ "," ++ printItems items

def printFields : List (String × Doc) → String
  | [] => ""
  | [(key, doc)] => "\"" ++ key ++ "\":" ++ doc.print
  | (key, doc) :: fields => "\"" ++ key ++ "\":" ++ doc.print ++ "," ++ printFields fields

end

end Doc

namespace WireSerde

/-- `serde_json` at one document of two fields. -/
def ofPair (kind : String) (data : Doc) (read : Json) (value : String → Option Json)
    (toRawValue : Json → String) (encoded : List UInt8 → Option EncodedSnapshot)
    (rawValue : List UInt8 → Option String) : WireSerde where
  write := Doc.print
  value := value
  toRawValue := toRawValue
  read bytes :=
    if bytes = Text.bytes (Doc.string kind).print then some (.string kind)
    else if bytes = Text.bytes data.print then some read
    else none
  readFields bytes :=
    if bytes = Text.bytes (Doc.object [("kind", .string kind), ("data", data)]).print then
      some [("kind", Text.bytes (Doc.string kind).print), ("data", Text.bytes data.print)]
    else none
  encoded := encoded
  rawValue := rawValue
  readFloat _ := .null

/-- What starts with a brace is not a quoted text. -/
theorem bytes_ne_string {text kind : String} (hstart : text.toList.head? = some '\x7b') :
    Text.bytes text ≠ Text.bytes (Doc.string kind).print := by
  intro heq
  have hprint : text = (Doc.string kind).print := by
    apply Option.some.inj
    rw [← Text.fromUtf8_bytes, heq, Text.fromUtf8_bytes]
  have hquote : (Doc.string kind).print.toList.head? = some '"' := by
    rw [Doc.print, String.append_assoc, String.toList_append]
    rfl
  rw [hprint, hquote] at hstart
  cases hstart

theorem prints_ofPair {kind : String} {data : Doc} {json : Json} {value : String → Option Json}
    {toRawValue : Json → String} {encoded : List UInt8 → Option EncodedSnapshot}
    {rawValue : List UInt8 → Option String}
    (hstart : data.print.toList.head? = some '\x7b')
    (hread : data.reread (ofPair kind data json value toRawValue encoded rawValue) = some json)
    (hnull : json ≠ .null) :
    (ofPair kind data json value toRawValue encoded rawValue).Prints
      [("kind", .string kind), ("data", data)] where
  envelope := if_pos rfl
  read := by
    intro p hp _
    simp only [List.mem_cons, List.not_mem_nil, or_false] at hp
    rcases hp with rfl | rfl
    · exact if_pos rfl
    · exact (if_neg (bytes_ne_string hstart)).trans ((if_pos rfl).trans hread.symm)
  raw text := by
    change (Doc.raw text).print = text
    rw [Doc.print]
  record := by
    intro bytes _
    simp only [ofPair]
    split
    · simp
    split
    · simpa using hnull
    · simp

/-- `serde_json` before it has read anything. -/
def blank : WireSerde where
  write := Doc.print
  value _ := none
  toRawValue _ := ""
  read _ := none
  readFields _ := none
  encoded _ := none
  rawValue _ := none
  readFloat _ := .null

/-- `serde_json` at one document of scalar fields. -/
def ofFields (fields : List (String × Doc)) : WireSerde :=
  { blank with
    read := fun bytes => (fields.find? fun p => Text.bytes p.2.print = bytes).bind fun p =>
      p.2.reread blank
    readFields := fun bytes =>
      if bytes = Text.bytes (Doc.object fields).print then
        some (fields.map fun p => (p.1, Text.bytes p.2.print))
      else none }

theorem prints_ofFields {fields : List (String × Doc)}
    (hnodup : (fields.map fun p => p.2.print).Nodup)
    (hplain : ∀ p ∈ fields, p.2.reread (ofFields fields) = p.2.reread blank) :
    (ofFields fields).Prints fields where
  envelope := if_pos rfl
  read := by
    intro p hp _
    have hfind : fields.find? (fun q => Text.bytes q.2.print = Text.bytes p.2.print) = some p := by
      cases hfound : fields.find? (fun q => Text.bytes q.2.print = Text.bytes p.2.print) with
      | none => exact absurd (List.find?_eq_none.1 hfound p hp) (by simp)
      | some q =>
        have hbytes : Text.bytes q.2.print = Text.bytes p.2.print := by
          simpa using List.find?_some hfound
        have hprint : q.2.print = p.2.print := by
          apply Option.some.inj
          rw [← Text.fromUtf8_bytes, hbytes, Text.fromUtf8_bytes]
        rw [List.inj_on_of_nodup_map hnodup (List.mem_of_find?_eq_some hfound) hp hprint]
    change (fields.find? fun q => Text.bytes q.2.print = Text.bytes p.2.print).bind _ = _
    rw [hfind, hplain p hp]
    rfl
  raw text := by
    change (Doc.raw text).print = text
    rw [Doc.print]
  record _ hencoded := absurd rfl hencoded

end WireSerde

/-- Sets the text of the body to a JSON object. -/
def objectOps : List Op := [.set Dom.body (.known .text) (.json "\x7b\"a\":1\x7d")]

def objectJson : Json := .object [("a", .number (.posInt 1))]

def objectSerde : WireSerde :=
  .ofPair "patch@1" (serializePatch Dom.sampleCause none none objectOps)
    (.object [("cause", .string (String.ofList Dom.sampleCause.encode)), ("prior", .null),
      ("label", .null), ("ops", .array [.array [.string "set", .number (.posInt 3), .string "text",
        objectJson]])])
    (fun text => if text = "\x7b\"a\":1\x7d" then some objectJson else none)
    (fun _ => "\x7b\"a\":1\x7d") (fun _ => none) (fun _ => none)

theorem objectPatch_roundTrips :
    (Event.patch Dom.sampleCause none none objectOps).RoundTrips objectSerde fun _ => [] := by
  have hread : (serializePatch Dom.sampleCause none none objectOps).reread objectSerde =
      some (.object [("cause", .string (String.ofList Dom.sampleCause.encode)), ("prior", .null),
        ("label", .null), ("ops", .array [.array [.string "set", .number (.posInt 3), .string "text",
          objectJson]])]) := rfl
  apply Event.Carried.roundTrips
  · refine ⟨?_, ?_, ?_⟩
    · simp [objectOps, Op.handles, Handle.Valid, Dom.body]
    · intro op hop v hv
      simp only [objectOps, List.mem_singleton] at hop
      subst hop
      simp only [Op.values, List.mem_singleton] at hv
      subst hv
      exact ⟨objectJson, rfl, rfl⟩
    · intro json hjson
      rw [hread] at hjson
      cases hjson
      decide
  · have hstart : (serializePatch Dom.sampleCause none none objectOps).print.toList.head? =
        some '\x7b' := by
      rw [serializePatch, Doc.print, String.append_assoc, String.toList_append]
      rfl
    have hprints := WireSerde.prints_ofPair hstart hread (by simp)
    refine ⟨fun _ _ => hprints, ?_, ?_⟩
    · intro s heq
      cases heq
    · intro s heq
      cases heq

/-- `serde_json` at one snapshot. -/
def snapshotSerde (text : String) (json : Json) (encoded : EncodedSnapshot) : WireSerde :=
  .ofPair "snapshot@1" (.raw text) json (fun input => if input = text then some json else none)
    (fun _ => "") (fun bytes => if bytes = Text.bytes text then some encoded else none)
    (fun bytes => if bytes = Text.bytes text then some text else none)

section

variable (text : String) (json : Json) (encoded : EncodedSnapshot)

theorem encoded_snapshotSerde :
    (snapshotSerde text json encoded).encoded (Text.bytes text) = some encoded := if_pos rfl

theorem rawValue_snapshotSerde :
    (snapshotSerde text json encoded).rawValue (Text.bytes text) = some text := if_pos rfl

theorem printsAt_snapshotSerde {s : Snapshot} (hplain : ∀ h n, s.nodes h = some n → n.props = [])
    (hstart : text.toList.head? = some '\x7b') (hnull : json ≠ .null) :
    WireSerde.Prints.At (snapshotSerde text json encoded) (fun _ => Text.bytes text) (.reset s) where
  fields := by
    intro raw hraw
    have htext : some text = some raw := (rawValue_snapshotSerde text json encoded).symm.trans (hraw s rfl)
    cases htext
    apply WireSerde.prints_ofPair
    · rwa [Doc.print]
    · exact if_pos rfl
    · exact hnull
  values := by
    intro _ heq h n hn p hp
    cases heq
    rw [hplain h n hn] at hp
    cases hp
  trimmed := by
    intro _ _ _
    exact ⟨text, rawValue_snapshotSerde text json encoded, rfl⟩

/-- A snapshot that counts too many handles is not decoded. -/
theorem not_roundTrips_snapshotSerde {s : Snapshot}
    (hprints : WireSerde.Prints.At (snapshotSerde text json encoded) (fun _ => Text.bytes text) (.reset s))
    (hspent : snapshotHighWaterLimit < encoded.highWater) :
    ¬ (Event.reset s).RoundTrips (snapshotSerde text json encoded) fun _ => Text.bytes text := by
  have hencoded := encoded_snapshotSerde text json encoded
  have hfields := hprints.fields text fun _ _ => rawValue_snapshotSerde text json encoded
  have hrefused : Snapshot.fromBytes (snapshotSerde text json encoded).toSnapshotSerde (Text.bytes text) =
      .error (.highWater encoded.highWater snapshotHighWaterLimit) := by
    rw [Snapshot.fromBytes, hencoded]
    exact if_pos hspent
  have hdecode := decode_reset hfields (by simp [hencoded])
  rw [hrefused] at hdecode
  rintro ⟨bytes, event', hbytes, hevent', -⟩
  rw [encodeEvent, rawValue_snapshotSerde] at hbytes
  cases hbytes
  cases hdecode.symm.trans hevent'

end

/-- A new tree from which more handles were handed out than a snapshot may count. -/
def spentTree : Dom := .withHighWater 1048577

def spentSnapshot : Snapshot := spentTree.snapshot (Dom.Wf.withHighWater 1048577).live

/-- One of the four nodes of a new tree. -/
def nodeJson (h : UInt64) (parent : Json) (tag : String) (kids : List Json) : Json :=
  .object [("handle", .number (.posInt h)), ("parent", parent), ("node", .object
    [("tag", .string tag), ("props", .array []), ("kids", .array kids), ("content", .null)])]

def spentJson : Json :=
  let number (n : UInt64) : Json := .number (.posInt n)
  .object [("high_water", number 1048577), ("next_sid", number 1), ("nodes", .array
    [nodeJson 1 .null "session" [number 2, number 3, number 4], nodeJson 2 (number 1) "meta" [],
      nodeJson 3 (number 1) "body" [], nodeJson 4 (number 1) "queues" []]), ("streams", .array [])]

def spentText : String :=
  "\x7b" ++ ("\"high_water\":1048577,\"next_sid\":1,\"nodes\":[" ++
    EncodedSnapshot.canonicalText ++ "],\"streams\":[]\x7d")

theorem nodes_snapshot_withHighWater (highWater : Nat) (h : Handle) :
    ((Dom.withHighWater highWater).snapshot (Dom.Wf.withHighWater highWater).live).nodes h =
      (Dom.withHighWater highWater).nodes h := rfl

/-- The snapshot of a new tree lists the four nodes. -/
theorem encode_withHighWater (serde : WireSerde) (n : Nat) :
    ((Dom.withHighWater (4 + n)).snapshot (Dom.Wf.withHighWater (4 + n)).live).encode serde =
      .withNodes (4 + n) [] := by
  have hmark : ((Dom.withHighWater (4 + n)).snapshot (Dom.Wf.withHighWater (4 + n)).live).highWater =
      4 + n := Nat.max_eq_left (Nat.le_add_right 4 n)
  have hbeyond : ∀ i : Nat, (Dom.withHighWater (4 + n)).nodes (4 + i + 1) = none := by
    intro i
    by_contra hlive
    have hmem := Dom.nodes_withHighWater.1 hlive
    simp only [Dom.root, Dom.meta, Dom.body, Dom.queues, List.mem_cons, List.not_mem_nil,
      or_false] at hmem
    have hne : ∀ j : Nat, ¬ (4 + j + 1 = 1 ∨ 4 + j + 1 = 2 ∨ 4 + j + 1 = 3 ∨ 4 + j + 1 = 4) := by omega
    exact hne i hmem
  rw [Snapshot.encode, hmark, List.range_add, List.filterMap_append, List.filterMap_map]
  simp only [Function.comp_def, nodes_snapshot_withHighWater, hbeyond, Option.map_none,
    List.filterMap_none, List.append_nil]
  rfl

/-- The owner publishes the snapshot and no replica is given it. -/
theorem spent_reset_refused :
    (spentTree.perform (.reset spentSnapshot)).2 = some (.reset spentSnapshot) ∧
      ∃ serde : WireSerde, serde.encoded (Text.bytes spentText) = some (spentSnapshot.encode serde) ∧
        WireSerde.Prints.At serde (fun _ => Text.bytes spentText) (.reset spentSnapshot) ∧
        ¬ (Event.reset spentSnapshot).RoundTrips serde fun _ => Text.bytes spentText := by
  have hplain : ∀ h n, spentSnapshot.nodes h = some n → n.props = [] := by
    intro h n hn
    have hnode : (Dom.withHighWater 1048577).nodes h = some n := hn
    have hlive := Dom.nodes_withHighWater.1 (Option.ne_none_iff_exists'.2 ⟨n, hnode⟩)
    simp only [List.mem_cons, List.not_mem_nil, or_false] at hlive
    rcases hlive with rfl | rfl | rfl | rfl
    all_goals
      cases hn
      rfl
  have hstart : spentText.toList.head? = some '\x7b' := by
    rw [spentText, String.toList_append]
    rfl
  have hprints := printsAt_snapshotSerde spentText spentJson (.withNodes 1048577 []) hplain hstart
    (by simp [spentJson])
  refine ⟨rfl, snapshotSerde spentText spentJson (.withNodes 1048577 []), ?_, hprints, ?_⟩
  · rw [encoded_snapshotSerde]
    exact congrArg some (encode_withHighWater _ 1048573).symm
  · exact not_roundTrips_snapshotSerde _ _ _ hprints (by decide)

end OhMyPi
