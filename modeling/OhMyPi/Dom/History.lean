import OhMyPi.Dom.Decode
import OhMyPi.Dom.RedactedReplica

/-! Whole histories of a tree: transactions, streams, events applied by replicas, raised floors and
snapshots. The tree invariant holds throughout, and handles are handed out once, as long as resets
bring trees whose mark is not below the one they replace. -/

namespace OhMyPi

open Forest Skeleton

/-- The mutation that `apply_event` makes of an event, none when its fields do not fit. -/
def Event.mutation : Event → Option OwnerOp
  | .patch cause prior label ops => some (.apply { cause, label, ops } prior)
  | .reset snapshot => some (.reset snapshot)
  | .stream cause sid .open (some node) (some prop) none =>
    some (.streamOpenWithId cause sid node prop)
  | .stream cause sid .append none none (some text) => some (.streamAppend cause sid text)
  | .stream cause sid .close none none none => some (.streamClose cause sid)
  | .stream .. => none

/-- What can happen to a tree. -/
inductive TreeStep where
  | perform (op : OwnerOp)
  | applyEvent (event : Event)
  | raiseHighWater (floor : Nat)
  | raiseStreamHighWater (floor : Sid)

def TreeStep.mutation : TreeStep → Option OwnerOp
  | .perform op => some op
  | .applyEvent event => event.mutation
  | .raiseHighWater _ => none
  | .raiseStreamHighWater _ => none

/-- The handles that a mutation hands out. -/
def Dom.handsOut (dom : Dom) : OwnerOp → List Handle
  | .apply txn _ =>
    match dom.apply txn with
    | .ok (_, minted) => minted
    | .error _ => []
  | _ => []

/-- A tree and the handles it has handed out. -/
structure History where
  dom : Dom
  handed : List Handle := []

namespace History

def mutate (history : History) (op : OwnerOp) : History where
  dom := (history.dom.perform op).1
  handed := history.handed ++ history.dom.handsOut op

def advance (history : History) : TreeStep → History
  | .perform op => history.mutate op
  | .applyEvent event =>
    match event.mutation with
    | none => history
    | some op => history.mutate op
  | .raiseHighWater floor => { history with dom := history.dom.raiseHighWater floor }
  | .raiseStreamHighWater floor => { history with dom := history.dom.raiseStreamHighWater floor }

end History

/-- A replica that accepts an event makes its mutation. -/
theorem Dom.applyEvent_eq_ok {dom dom' : Dom} {event : Event} (h : dom.applyEvent event = .ok dom') :
    ∃ op, event.mutation = some op ∧ (dom.perform op).1 = dom' := by
  have hpublished : ∀ {x : Except DomError (Dom × Event)}, x.map (·.1) = .ok dom' →
      (dom.published x).1 = dom' := by
    intro x hx
    obtain ⟨p, rfl, rfl⟩ := Except.map_eq_ok.1 hx
    rfl
  cases event with
  | patch cause prior label ops => exact ⟨_, rfl, hpublished h⟩
  | reset snapshot =>
    cases h
    exact ⟨_, rfl, rfl⟩
  | stream cause sid op node prop text =>
    cases op with
    | «open» =>
      match node, prop, text with
      | some node, some prop, none => exact ⟨_, rfl, hpublished h⟩
      | none, _, _ | some _, none, _ | some _, some _, some _ => cases h
    | append =>
      match node, prop, text with
      | none, none, some text => exact ⟨_, rfl, hpublished h⟩
      | some _, _, _ | none, some _, _ | none, none, none => cases h
    | close =>
      match node, prop, text with
      | none, none, none =>
        refine ⟨_, rfl, ?_⟩
        simp only [applyEvent] at h
        split at h
        · next hclose =>
          cases h
          rw [perform, hclose]
        · cases h
      | some _, _, _ | none, some _, _ | none, none, some _ => cases h

/-! ## Transactions -/

namespace Skeleton

variable {s : Skeleton}

theorem highWater_le_apply (s : Skeleton) (op : Op) : s.highWater ≤ (s.apply op).highWater := by
  cases op with
  | ins => exact Nat.le_succ _
  | rm => exact le_rfl
  | set => exact le_rfl
  | mv => exact le_rfl

theorem highWater_le_applyAll (s : Skeleton) (ops : List Op) :
    s.highWater ≤ (s.applyAll ops).highWater := by
  induction ops generalizing s with
  | nil => exact le_rfl
  | cons op ops ih => exact (s.highWater_le_apply op).trans (ih _)

/-- Minted handles lie between the marks. -/
theorem mem_mintsAll {ops : List Op} {h : Nat} (hh : h ∈ s.mintsAll ops) :
    s.highWater < h ∧ h ≤ (s.applyAll ops).highWater := by
  induction ops generalizing s with
  | nil => cases hh
  | cons op ops ih =>
    rw [mintsAll] at hh
    rcases List.mem_append.1 hh with hh | hh
    · cases op with
      | ins parent after node =>
        obtain rfl : h = s.highWater + 1 := by simpa [mints] using hh
        exact ⟨Nat.lt_succ_self _, (s.apply (.ins parent after node)).highWater_le_applyAll ops⟩
      | rm => cases hh
      | set => cases hh
      | mv => cases hh
    · exact ⟨(s.highWater_le_apply op).trans_lt (ih hh).1, (ih hh).2⟩

theorem nodup_mintsAll (s : Skeleton) (ops : List Op) : (s.mintsAll ops).Nodup := by
  induction ops generalizing s with
  | nil => exact .nil
  | cons op ops ih =>
    rw [mintsAll, List.nodup_append]
    refine ⟨?_, ih _, ?_⟩
    · cases s.mints op with
      | none => exact .nil
      | some h => exact List.nodup_singleton h
    · rintro h hh _ hh' rfl
      have hlt := (mem_mintsAll hh').1
      cases op with
      | ins parent after node =>
        obtain rfl : h = s.highWater + 1 := by simpa [mints] using hh
        exact absurd hlt (Nat.lt_irrefl _)
      | rm => cases hh
      | set => cases hh
      | mv => cases hh

/-- A fixed root of `s` is in the same place in `s'`. -/
def FixedRootsStay (s s' : Skeleton) : Prop :=
  ∀ k, s.tag k ≠ none → s.isFixedRoot k = true → s'.tag k = s.tag k ∧ s'.parent k = s.parent k

theorem Tree.fixed_applyAll (h : s.Tree) {ops : List Op} (hops : s.AdmitsAll ops) :
    s.FixedRootsStay (s.applyAll ops) := by
  induction ops generalizing s with
  | nil => exact fun _ _ _ => ⟨rfl, rfl⟩
  | cons op ops ih =>
    intro k hk hfixed
    obtain ⟨htag, hparent⟩ := h.fixed_apply hops.1 hk hfixed
    have hfixed' : (s.apply op).isFixedRoot k = true := by rw [isFixedRoot_congr htag hparent, hfixed]
    obtain ⟨htag', hparent'⟩ := ih (h.apply hops.1) hops.2 k (by rwa [htag]) hfixed'
    exact ⟨htag'.trans htag, hparent'.trans hparent⟩

theorem Tree.raise (h : s.Tree) {highWater : Nat} (hle : s.highWater ≤ highWater) :
    ({ s with highWater } : Skeleton).Tree :=
  { h with bounded := fun hk => (h.bounded hk).trans hle }

end Skeleton

/-! ## The invariant -/

namespace History

/-- One tree with its fixed roots, streams bound to live nodes, and handles handed out once. -/
structure Invariant (history : History) : Prop where
  tree : history.dom.skeleton.Tree
  live : history.dom.Live
  handed_nodup : history.handed.Nodup
  handed_le : ∀ h ∈ history.handed, h ≤ history.dom.highWater

variable {history : History}

theorem Invariant.of_skeleton (h : history.Invariant) {dom : Dom} (hlive : dom.Live)
    (hskeleton : dom.skeleton = history.dom.skeleton) :
    ({ history with dom } : History).Invariant where
  tree := hskeleton ▸ h.tree
  live := hlive
  handed_nodup := h.handed_nodup
  handed_le := by
    have hhighWater : dom.highWater = history.dom.highWater := congrArg Skeleton.highWater hskeleton
    rw [hhighWater]
    exact h.handed_le

/-- A mutation that leaves the structure alone. -/
theorem Invariant.mutate_of_skeleton (h : history.Invariant) {op : OwnerOp}
    (hhanded : history.dom.handsOut op = [])
    (hskeleton : (history.dom.perform op).1.skeleton = history.dom.skeleton) :
    (history.mutate op).Invariant ∧
      history.dom.skeleton.FixedRootsStay (history.mutate op).dom.skeleton := by
  have hmutate : history.mutate op = { history with dom := (history.dom.perform op).1 } := by
    rw [mutate, hhanded, List.append_nil]
  rw [hmutate]
  refine ⟨h.of_skeleton (h.live.perform op) hskeleton, fun k _ _ => ?_⟩
  rw [hskeleton]
  exact ⟨rfl, rfl⟩

theorem skeleton_streamOpen (dom : Dom) (cause : EntryId) (sid : Sid) (handle : Handle)
    (prop : PropKey) :
    (dom.published (dom.streamOpen cause sid handle prop)).1.skeleton = dom.skeleton := by
  rcases Dom.published_cases dom (dom.streamOpen cause sid handle prop) with
    ⟨e, -, heq⟩ | ⟨dom', event, hok, heq⟩
  · rw [heq]
  · rw [heq]
    obtain ⟨-, rfl, -⟩ := Dom.streamOpen_eq_ok.1 hok
    rfl

/-- Every mutation but a reset keeps the invariant and leaves the fixed roots in place. -/
theorem Invariant.mutate (h : history.Invariant) {op : OwnerOp} (hop : ∀ s, op ≠ .reset s) :
    (history.mutate op).Invariant ∧
      history.dom.skeleton.FixedRootsStay (history.mutate op).dom.skeleton := by
  cases op with
  | apply txn prior =>
    cases happly : history.dom.apply txn with
    | error e =>
      apply h.mutate_of_skeleton
      · rw [Dom.handsOut, happly]
      · rw [Dom.perform, Dom.applyWithPrior, happly]
        rfl
    | ok result =>
      obtain ⟨dom', minted⟩ := result
      obtain ⟨hadmits, rfl, rfl⟩ := (Dom.apply_eq_ok h.tree).1 happly
      have hskeleton := Dom.skeleton_applyOps h.tree hadmits
      have hdom : (history.mutate (.apply txn prior)).dom = history.dom.applyOps txn.ops := by
        rw [History.mutate, Dom.perform, Dom.applyWithPrior, happly]
        rfl
      have hhanded : (history.mutate (.apply txn prior)).handed =
          history.handed ++ history.dom.skeleton.mintsAll txn.ops := by
        rw [History.mutate, Dom.handsOut, happly]
      have hhighWater : (history.dom.applyOps txn.ops).highWater =
          (history.dom.skeleton.applyAll txn.ops).highWater := congrArg Skeleton.highWater hskeleton
      refine ⟨⟨?_, ?_, ?_, ?_⟩, ?_⟩
      · rw [hdom, hskeleton]
        exact h.tree.applyAll hadmits
      · exact h.live.perform _
      · rw [hhanded, List.nodup_append]
        refine ⟨h.handed_nodup, nodup_mintsAll _ _, ?_⟩
        rintro k hk _ hk' rfl
        exact absurd (h.handed_le k hk) (Nat.not_le_of_lt (mem_mintsAll hk').1)
      · rw [hhanded, hdom, hhighWater]
        intro k hk
        rcases List.mem_append.1 hk with hk | hk
        · exact (h.handed_le k hk).trans (history.dom.skeleton.highWater_le_applyAll txn.ops)
        · exact (mem_mintsAll hk).2
      · rw [hdom, hskeleton]
        exact h.tree.fixed_applyAll hadmits
  | streamOpen cause handle prop =>
    exact h.mutate_of_skeleton rfl (skeleton_streamOpen ..)
  | streamOpenWithId cause sid handle prop =>
    exact h.mutate_of_skeleton rfl (skeleton_streamOpen ..)
  | streamAppend cause sid text =>
    apply h.mutate_of_skeleton rfl
    rw [Dom.perform_append]
    split
    · rfl
    · rfl
  | streamClose cause sid =>
    apply h.mutate_of_skeleton rfl
    simp only [Dom.perform, Dom.streamClose]
    split
    · rfl
    · next stream _ =>
      split
      · rfl
      · exact Dom.skeleton_modifyNode (f := (·.setProp stream.prop (.str stream.text)))
          (fun _ => rfl) (fun _ => rfl) _
  | reset s => exact absurd rfl (hop s)

theorem mutate_reset (history : History) (s : Snapshot) :
    history.mutate (.reset s) = ⟨.fromSnapshot s, history.handed⟩ := by
  rw [History.mutate, show history.dom.handsOut (.reset s) = [] from rfl, List.append_nil]
  rfl

theorem advance_of_mutation {step : TreeStep} {op : OwnerOp} (h : step.mutation = some op) :
    history.advance step = history.mutate op := by
  cases step with
  | perform => cases h; rfl
  | applyEvent event =>
    replace h : event.mutation = some op := h
    rw [advance, h]
  | raiseHighWater => cases h
  | raiseStreamHighWater => cases h

theorem Invariant.advance (h : history.Invariant) {step : TreeStep}
    (hstep : ∀ s, step.mutation ≠ some (.reset s)) : (history.advance step).Invariant ∧
      history.dom.skeleton.FixedRootsStay (history.advance step).dom.skeleton := by
  have hmutate : ∀ op, step.mutation = some op → (history.mutate op).Invariant ∧
      history.dom.skeleton.FixedRootsStay (history.mutate op).dom.skeleton := by
    intro op hop
    apply h.mutate
    rintro s rfl
    exact hstep s hop
  cases step with
  | perform op => exact hmutate op rfl
  | applyEvent event =>
    cases hevent : event.mutation with
    | none =>
      rw [History.advance, hevent]
      exact ⟨h, fun _ _ _ => ⟨rfl, rfl⟩⟩
    | some op =>
      rw [History.advance, hevent]
      exact hmutate op hevent
  | raiseHighWater floor =>
    rw [History.advance, Dom.raiseHighWater]
    split
    · exact ⟨h, fun _ _ _ => ⟨rfl, rfl⟩⟩
    · next hlt =>
      have hle : history.dom.highWater ≤ floor := Nat.le_of_lt (Nat.not_le.1 hlt)
      exact ⟨⟨h.tree.raise hle, h.live, h.handed_nodup, fun k hk => (h.handed_le k hk).trans hle⟩,
        fun _ _ _ => ⟨rfl, rfl⟩⟩
  | raiseStreamHighWater floor =>
    exact ⟨⟨h.tree, h.live, h.handed_nodup, h.handed_le⟩, fun _ _ _ => ⟨rfl, rfl⟩⟩

end History

/-! ## Regular histories -/

mutual

/-- Histories in which every snapshot that is restored was taken of such a history, maybe redacted,
or decoded from bytes in which a walk meets every node once, and in which no reset lowers the
mark. -/
inductive Regular : History → Prop where
  | withHighWater (highWater : Nat) : Regular { dom := .withHighWater highWater }
  | fromSnapshot : Restorable s handed → Regular { dom := .fromSnapshot s, handed }
  | advance (step : TreeStep) : Regular history → (∀ s, step.mutation ≠ some (.reset s)) →
    Regular (history.advance step)
  | reset (step : TreeStep) : Regular history → step.mutation = some (.reset s) →
    Restorable s handed → history.dom.highWater ≤ s.highWater → Regular (history.advance step)

/-- Snapshots of regular histories, with the handles handed out there. -/
inductive Restorable : Snapshot → List Handle → Prop where
  | taken : Regular history → (hlive : history.dom.Live) →
    Restorable (history.dom.snapshot hlive) history.handed
  | redacted (policy : PropPolicy) : Restorable s handed → Restorable (s.redact policy) handed
  | decoded : serde.encoded bytes = some encoded → Snapshot.fromBytes serde bytes = .ok s →
    encoded.Walks → Restorable s []

end

namespace Dom

theorem children_withHighWater (highWater : Nat) (h : Handle) :
    (withHighWater highWater).children h =
      if h = root then [Dom.meta, body, queues] else [] := by
  dsimp only [children, withHighWater]
  split
  · rfl
  split
  · rfl
  split
  · rfl
  split
  · rfl
  · rfl

theorem nodes_withHighWater {highWater : Nat} {h : Handle} :
    (withHighWater highWater).nodes h ≠ none ↔ h ∈ [root, Dom.meta, body, queues] := by
  dsimp only [withHighWater]
  simp only [List.mem_cons, List.not_mem_nil, or_false]
  split
  · next heq => simp [heq]
  split
  · next heq => simp [heq]
  split
  · next heq => simp [heq]
  split
  · next heq => simp [heq]
  · next h₁ h₂ h₃ h₄ => simp [h₁, h₂, h₃, h₄]

theorem tree_withHighWater (highWater : Nat) : (withHighWater highWater).skeleton.Tree := by
  have hlive : ∀ k, k ∈ [root, Dom.meta, body, queues] ↔
      (withHighWater highWater).skeleton.tag k ≠ none :=
    fun k => nodes_withHighWater.symm.trans skeleton_tag_ne_none.symm
  have hparent : ∀ k, (withHighWater highWater).skeleton.parent k =
      if k = Dom.meta ∨ k = body ∨ k = queues then some root else none := fun _ => rfl
  have hchildren : (withHighWater highWater).skeleton.children =
      fun h => if h = root then [Dom.meta, body, queues] else [] :=
    funext (children_withHighWater highWater)
  have hrooted : Rooted root (· ∈ [root, Dom.meta, body, queues])
      (withHighWater highWater).skeleton.parent (withHighWater highWater).skeleton.children := by
    apply (rooted_iff_walk (by decide) _ _ rfl (by decide)).2
    · rw [hchildren]
      decide
    · intro p k hk
      rw [hparent]
      simp only [hchildren] at hk
      split at hk
      · next hp =>
        rw [hp, if_pos (by simpa using hk)]
      · cases hk
    · intro a b hab
      rw [hparent] at hab
      split at hab
      · next ha =>
        cases hab
        exact ⟨by simp [ha], by decide⟩
      · cases hab
  have hpos : ∀ k ∈ [root, Dom.meta, body, queues], 0 < k := by decide
  have hslotted := (Wf.withHighWater highWater).slotted
  refine ⟨hrooted.congr_live hlive, ?_, ?_, rfl, rfl, rfl, rfl, rfl⟩
  · intro k hk
    exact hpos k ((hlive k).2 hk)
  · intro k hk
    exact hslotted k (skeleton_tag_ne_none.1 hk)

end Dom

theorem skeleton_redact (s : Snapshot) (policy : PropPolicy) :
    (Dom.fromSnapshot (s.redact policy)).skeleton = (Dom.fromSnapshot s).skeleton := by
  rw [Dom.skeleton_fromSnapshot rfl, Dom.skeleton]
  congr 1
  · funext h
    rw [Option.map_map]
    rfl
  · funext h
    rw [Option.map_map]
    rfl

mutual

theorem Regular.invariant {history : History} : Regular history → history.Invariant
  | .withHighWater highWater =>
    ⟨Dom.tree_withHighWater highWater, (Dom.Wf.withHighWater highWater).live, .nil, by simp⟩
  | .fromSnapshot hs =>
    have ⟨htree, hnodup, hle⟩ := hs.invariant
    ⟨htree, Dom.Live.fromSnapshot _, hnodup, hle⟩
  | .advance _ h hstep => (h.invariant.advance hstep).1
  | .reset step h hstep hs hle => by
    have hinv := h.invariant
    have ⟨htree, _, _⟩ := hs.invariant
    rw [History.advance_of_mutation hstep, History.mutate_reset]
    exact ⟨htree, Dom.Live.fromSnapshot _, hinv.handed_nodup,
      fun k hk => (hinv.handed_le k hk).trans hle⟩

theorem Restorable.invariant {s : Snapshot} {handed : List Handle} : Restorable s handed →
    (Dom.fromSnapshot s).skeleton.Tree ∧ handed.Nodup ∧ ∀ h ∈ handed, h ≤ s.highWater
  | .taken h hlive =>
    have hinv := h.invariant
    ⟨(Dom.skeleton_snapshot hlive).symm ▸ hinv.tree, hinv.handed_nodup, hinv.handed_le⟩
  | .redacted policy h =>
    have ⟨htree, hnodup, hle⟩ := h.invariant
    ⟨(skeleton_redact _ policy).symm ▸ htree, hnodup, hle⟩
  | .decoded hencoded hbytes hwalks => by
    rw [Snapshot.fromBytes, hencoded] at hbytes
    exact ⟨(EncodedSnapshot.tree_iff_walks hbytes).2 hwalks, .nil, by simp⟩

end

/-- Every state of a regular history is one tree, its streams are bound to live nodes, its handles
were handed out once, and no step but a reset moves a fixed root. -/
theorem Regular.invariant_and_fixedRootsStay {history : History} (h : Regular history) :
    history.Invariant ∧ ∀ step : TreeStep, (∀ s, step.mutation ≠ some (.reset s)) →
      history.dom.skeleton.FixedRootsStay (history.advance step).dom.skeleton :=
  ⟨h.invariant, fun _ hstep => (h.invariant.advance hstep).2⟩

/-- Inserts a turn under the body. -/
def insertTurn : TreeStep :=
  .perform (.apply ⟨Dom.sampleCause, none, [.ins Dom.body none { tag := .known .turn }]⟩ none)

theorem Regular.insertTurn_invariant :
    Regular (History.advance { dom := .withHighWater 4 } insertTurn) ∧
      (History.advance { dom := .withHighWater 4 } insertTurn).Invariant := by
  have hregular : Regular (History.advance { dom := .withHighWater 4 } insertTurn) :=
    .advance _ (.withHighWater 4) (by simp [insertTurn, TreeStep.mutation])
  exact ⟨hregular, hregular.invariant_and_fixedRootsStay.1⟩

/-- A reset to a snapshot whose mark is lower makes the next insertion hand out a handle again. -/
theorem History.reset_reuses_handle :
    ¬ ([insertTurn, .applyEvent (.reset (Dom.new.snapshot (Dom.Wf.withHighWater 4).live)),
        insertTurn].foldl History.advance { dom := .withHighWater 4 }).handed.Nodup := by
  decide

end OhMyPi
