import OhMyPi.Dom.History
import OhMyPi.Dom.Replica

/-! Trees with the same snapshot. They agree up to the first value of properties that an open stream
is bound to, in either direction, and as long as no stream is opened on such a property they accept
the same events and keep on having the same snapshot. -/

namespace OhMyPi

open KeyedList

namespace Dom

variable {r d m : Dom} {event : Event}

/-- Slot by slot, the snapshots of the two trees are the same. -/
structure SameSnapshot (r d : Dom) : Prop where
  parents : d.parents = r.parents
  highWater : d.highWater = r.highWater
  streams : d.streams = r.streams
  nextSid : d.nextSid = r.nextSid
  nodes : ∀ h, (materializeAll d.nodes d.streams.entries h).map Node.sortProps =
    (materializeAll r.nodes r.streams.entries h).map Node.sortProps

/-- The trees stand for each other: one replica stands for both. -/
def Alike (r d : Dom) : Prop := ∃ m, Sim r m ∧ Sim d m

theorem Sim.refl (dom : Dom) : Sim dom dom :=
  ⟨rfl, rfl, rfl, rfl, NodesSim.refl _ _⟩

theorem Sim.alike (h : Sim r d) : Alike r d := ⟨d, h, .refl d⟩

theorem Alike.canonical_eq (h : Alike r d) : d.canonical = r.canonical := by
  obtain ⟨m, hr, hd⟩ := h
  rw [← hd.canonical_eq, hr.canonical_eq]

/-- Under an open stream only the first value can differ. -/
theorem valuesAt_assignAll_texts {streams : List (Sid × OpenStream)} {h : Handle} {key : PropKey}
    (props : List (PropKey × Value)) :
    valuesAt key (assignAll (textsAt streams h) props) = valuesAt key props ∨
      Bound streams h key ∧ ∃ text, valuesAt key (assignAll (textsAt streams h) props) =
        .str text :: (valuesAt key props).tail := by
  have hsim : ∀ values : List (PropKey × Value), (∀ p ∈ values, ∃ text, p.2 = .str text) →
      valuesAt key (assignAll values props) = valuesAt key props ∨
        key ∈ values.map Prod.fst ∧ ∃ text, valuesAt key (assignAll values props) =
          .str text :: (valuesAt key props).tail := by
    intro values htext
    induction values generalizing props with
    | nil => exact .inl rfl
    | cons p values ih =>
      obtain ⟨⟨text, hp⟩, hrest⟩ := List.forall_mem_cons.1 htext
      have htail : (valuesAt key (assign p.1 p.2 props)).tail = (valuesAt key props).tail := by
        by_cases hkey : key = p.1
        · rw [hkey, valuesAt_assign_self]
          rfl
        · rw [valuesAt_assign_ne hkey]
      rcases ih (assign p.1 p.2 props) hrest with heq | ⟨hmem, text', heq⟩
      · by_cases hkey : key = p.1
        · refine .inr ⟨List.mem_cons.2 (.inl hkey), text, ?_⟩
          refine heq.trans ?_
          rw [hkey, valuesAt_assign_self, hp]
        · exact .inl (heq.trans (valuesAt_assign_ne hkey _ _))
      · refine .inr ⟨List.mem_cons_of_mem _ hmem, text', heq.trans ?_⟩
        rw [htail]
  have htexts : ∀ p ∈ textsAt streams h, ∃ text, p.2 = .str text := by
    intro p hp
    obtain ⟨q, -, rfl⟩ := List.mem_map.1 hp
    exact ⟨_, rfl⟩
  apply (hsim (textsAt streams h) htexts).imp_right
  intro ⟨hmem, htext⟩
  refine ⟨?_, htext⟩
  obtain ⟨p, hp, rfl⟩ := List.mem_map.1 hmem
  obtain ⟨q, hq, rfl⟩ := List.mem_map.1 hp
  obtain ⟨hq, hnode⟩ := List.mem_filter.1 hq
  exact ⟨q, hq, by simpa using hnode, rfl⟩

/-- A tree is stood for by the snapshot of every tree with the same snapshot. -/
theorem SameSnapshot.sim (h : SameSnapshot r d) (hlive : r.Live) :
    Sim d (fromSnapshot (r.snapshot hlive)) where
  parents := h.parents.symm
  highWater := h.highWater.symm
  streams := (OrdMap.ofList_entries r.streams).trans h.streams.symm
  nextSid := h.nextSid.symm
  nodes := by
    intro k
    have hnodes := h.nodes k
    change Option.Rel _ (d.nodes k) (materializeAll r.nodes r.streams.entries k)
    rw [materializeAll_apply d.nodes] at hnodes
    cases hm : materializeAll r.nodes r.streams.entries k with
    | none =>
      rw [hm] at hnodes
      cases hd : d.nodes k with
      | none => exact .none
      | some n =>
        rw [hd] at hnodes
        cases hnodes
    | some m =>
      rw [hm] at hnodes
      cases hd : d.nodes k with
      | none =>
        rw [hd] at hnodes
        cases hnodes
      | some n =>
        rw [hd] at hnodes
        have hsorted := Option.some.inj hnodes
        have hprops : ∀ key, valuesAt key (assignAll (textsAt d.streams.entries k) n.props) =
            valuesAt key m.props := by
          intro key
          rw [← valuesAt_sort, ← valuesAt_sort key m.props]
          exact congrArg (fun n : Node => valuesAt key n.props) hsorted
        have htag := congrArg Node.tag hsorted
        have hkids := congrArg Node.kids hsorted
        have hcontent := congrArg Node.content hsorted
        refine .some ⟨htag.symm, hkids.symm, hcontent.symm, fun key => ?_⟩
        rw [← hprops key]
        exact valuesAt_assignAll_texts n.props

theorem SameSnapshot.alike (h : SameSnapshot r d) (hlive : r.Live) : Alike r d :=
  ⟨_, .fromSnapshot hlive, h.sim hlive⟩

/-! ## Events -/

/-- The event does not open a stream on a property that an open stream is bound to. -/
def Unshares (dom : Dom) : Event → Prop
  | .stream _ _ .open (some node) (some prop) _ => ¬ Bound dom.streams.entries node prop
  | _ => True

theorem Sim.nodes_ne_none (h : Sim d m) {k : Handle} : m.nodes k ≠ none ↔ d.nodes k ≠ none := by
  have hisSome := map_eq_of_rel (h.nodes k) fun n m _ => (rfl : () = ())
  rw [← Option.isSome_iff_ne_none, ← Option.isSome_iff_ne_none]
  rw [← Option.isSome_map (f := fun _ => ()), ← Option.isSome_map (x := d.nodes k) (f := fun _ => ()),
    hisSome]

/-- What `apply_event` accepts, and what becomes of the tree. -/
inductive Accepts (dom : Dom) : Event → Dom → Prop where
  | patch : dom.validateOps ops = .ok minted →
    Accepts dom (.patch cause prior label ops) (dom.applyOps ops)
  | reset (s : Snapshot) : Accepts dom (.reset s) (fromSnapshot s)
  | opened : dom.validateStreamOpen sid handle prop = .ok () →
    Accepts dom (.stream cause sid .open (some handle) (some prop) none)
      { dom with
        streams := dom.streams.insert sid
          { node := handle, prop, text := dom.storedText handle prop, appendedBytes := 0 }
        nextSid := max (max dom.nextSid sid.succ) 1 }
  | appended : dom.streams.get? sid = some stream →
    Accepts dom (.stream cause sid .append none none (some text))
      { dom with streams := dom.streams.insert sid (stream.push text) }
  | closed : dom.streams.get? sid = some stream → dom.nodes stream.node ≠ none →
    Accepts dom (.stream cause sid .close none none none)
      ({ dom with streams := dom.streams.erase sid }.modifyNode stream.node
        (·.setProp stream.prop (.str stream.text)))

theorem accepts_iff {dom dom' : Dom} : dom.applyEvent event = .ok dom' ↔ dom.Accepts event dom' := by
  constructor
  · intro h
    cases event with
    | patch cause prior label ops =>
      obtain ⟨published, hpatch, rfl⟩ := Except.map_eq_ok.1 h
      obtain ⟨applied, happly, hpatch⟩ := Except.bind_eq_ok.1 hpatch
      obtain ⟨minted, hvalid, happly⟩ := Except.bind_eq_ok.1 happly
      cases happly
      cases hpatch
      exact .patch hvalid
    | reset s =>
      cases h
      exact .reset s
    | stream cause sid op node prop text =>
      cases op with
      | «open» =>
        match node, prop, text with
        | some node, some prop, none =>
          obtain ⟨⟨opened, event⟩, hopen, rfl⟩ := Except.map_eq_ok.1 h
          obtain ⟨hvalid, rfl, -⟩ := streamOpen_eq_ok.1 hopen
          exact .opened hvalid
        | none, _, _ | some _, none, _ | some _, some _, some _ => cases h
      | append =>
        match node, prop, text with
        | none, none, some text =>
          obtain ⟨⟨appended, event⟩, happend, rfl⟩ := Except.map_eq_ok.1 h
          obtain ⟨stream, hstream, rfl, -⟩ := streamAppend_eq_ok happend
          exact .appended hstream
        | some _, _, _ | none, some _, _ | none, none, none => cases h
      | close =>
        match node, prop, text with
        | none, none, none =>
          simp only [applyEvent, streamClose] at h
          cases hstream : dom.streams.get? sid with
          | none =>
            rw [hstream] at h
            cases h
          | some stream =>
            cases hnode : dom.nodes stream.node with
            | none =>
              simp only [hstream, hnode] at h
              cases h
            | some node =>
              simp only [hstream, hnode] at h
              cases h
              exact .closed hstream (by simp [hnode])
        | some _, _, _ | none, some _, _ | none, none, some _ => cases h
  · intro h
    cases h with
    | patch hvalid =>
      simp only [applyEvent, applyWithPrior, Dom.apply, hvalid]
      rfl
    | reset s => rfl
    | opened hvalid => exact Except.map_eq_ok.2 ⟨_, streamOpen_eq_ok.2 ⟨hvalid, rfl, rfl⟩, rfl⟩
    | appended hstream =>
      simp only [applyEvent, streamAppend, hstream]
      rfl
    | closed hstream hnode => simp only [applyEvent, streamClose_of_bound hstream hnode]

/-- A replica accepts what the owner does, and stays in step. -/
theorem Sim.accepts (h : Sim d m) {d' : Dom} (hunshared : d.Unshares event)
    (hd : d.Accepts event d') : ∃ m', m.Accepts event m' ∧ Sim d' m' := by
  cases hd with
  | patch hvalid => exact ⟨_, .patch ((h.validateOps_eq _).trans hvalid), h.applyOps _⟩
  | reset s => exact ⟨_, .reset s, .refl _⟩
  | opened hvalid =>
    refine ⟨_, .opened (h.validateStreamOpen hvalid), ?_⟩
    rw [h.storedText_eq hunshared, h.nextSid]
    exact h.opened _ _ _ (validateStreamOpen_eq_ok.1 hvalid).1
  | appended hstream => exact ⟨_, .appended (h.streams ▸ hstream), h.appended hstream _⟩
  | closed hstream hnode =>
    exact ⟨_, .closed (h.streams ▸ hstream) (h.nodes_ne_none.2 hnode), h.closed hstream⟩

/-- The owner accepts what the replica does. -/
theorem Sim.accepted (h : Sim d m) {m' : Dom} (hunshared : d.Unshares event)
    (hm : m.Accepts event m') : ∃ d', d.Accepts event d' := by
  cases hm with
  | patch hvalid => exact ⟨_, .patch ((h.validateOps_eq _).symm.trans hvalid)⟩
  | reset s => exact ⟨_, .reset s⟩
  | @opened sid handle prop cause hvalid =>
    obtain ⟨hfree, hsid, node, hnode, htext⟩ := validateStreamOpen_eq_ok.1 hvalid
    have hprop : (m.nodes handle).map (·.prop prop) = (d.nodes handle).map (·.prop prop) := by
      apply map_eq_of_rel (h.nodes handle)
      intro n m hsim
      exact (hsim.prop_eq_or prop).resolve_right fun hb => hunshared hb.1
    rw [hnode] at hprop
    obtain ⟨node', hnode', heq⟩ := Option.map_eq_some_iff.1 hprop.symm
    refine ⟨_, .opened (validateStreamOpen_eq_ok.2 ⟨h.streams ▸ hfree, h.nextSid ▸ hsid, node', hnode', ?_⟩)⟩
    rwa [heq]
  | appended hstream => exact ⟨_, .appended (h.streams ▸ hstream)⟩
  | closed hstream hnode => exact ⟨_, .closed (h.streams ▸ hstream) (h.nodes_ne_none.1 hnode)⟩

/-- Trees that are alike accept the same events and stay alike. -/
theorem Alike.applyEvent (h : Alike r d) {r' : Dom} (hunshared : r.Unshares event)
    (hr : r.applyEvent event = .ok r') : ∃ d', d.applyEvent event = .ok d' ∧ Alike r' d' := by
  obtain ⟨m, hrm, hdm⟩ := h
  have hunshared' : d.Unshares event := by
    have hstreams : d.streams = r.streams := hdm.streams.symm.trans hrm.streams
    unfold Unshares at hunshared ⊢
    rwa [hstreams]
  obtain ⟨m', hm', hrm'⟩ := hrm.accepts hunshared (accepts_iff.1 hr)
  obtain ⟨d', hd'⟩ := hdm.accepted hunshared' hm'
  obtain ⟨m'', hm'', hdm'⟩ := hdm.accepts hunshared' hd'
  have heq : m'' = m' := Except.ok.inj ((accepts_iff.2 hm'').symm.trans (accepts_iff.2 hm'))
  exact ⟨d', accepts_iff.2 hd', m', hrm', heq ▸ hdm'⟩

/-- Two appends to a stream are one append of both texts. -/
theorem applyEvent_append_append {dom d d' : Dom} {cause cause' : EntryId} {sid : Sid}
    {text text' : String} (h : dom.applyEvent (.stream cause sid .append none none (some text)) = .ok d)
    (h' : d.applyEvent (.stream cause' sid .append none none (some text')) = .ok d') :
    dom.applyEvent (.stream cause' sid .append none none (some (text ++ text'))) = .ok d' := by
  rw [accepts_iff] at h h' ⊢
  cases h with
  | @appended _ stream _ _ hstream =>
    cases h' with
    | @appended _ pushed _ _ hpushed =>
      simp only [OrdMap.get?_insert_self, Option.some.injEq] at hpushed
      subst hpushed
      have hpush : (stream.push text).push text' = stream.push (text ++ text') := by
        simp only [OpenStream.push, Str.len, String.utf8ByteSize_append, String.append_assoc,
          Nat.add_assoc]
      simp only [OrdMap.insert_insert_self, hpush]
      exact .appended hstream

end Dom

end OhMyPi
