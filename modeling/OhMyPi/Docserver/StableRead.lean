import OhMyPi.Docserver.Commit

/-! Steps of a commit among other processes, and the stable read. A file that a stable read of a
watched place reports is the file there, as long as nobody else puts anything at the place. -/

namespace OhMyPi.Docserver

open Action

variable {Hash : Type}

/-! ### Steps among others -/

/-- Others have kept their hands off the watched places, except that they may have removed what was
there. -/
def Settles (watched : List Place) (w w' : World) : Prop :=
  ∀ p ∈ watched, w'.look p = none ∨ w'.look p = w.look p

theorem settles_of_not_disturbs (h : disturbs watched w w' = false) : Settles watched w w' := by
  intro p hp
  have hno := List.any_eq_false.1 h p hp
  simp only [Bool.and_eq_true, decide_eq_true_eq, not_and, ne_eq, Classical.not_not] at hno
  exact or_iff_not_imp_left.2 hno

abbrev Spoiled (r : Run) : Prop := r.disturbed = true

/-- The run after a step that did nothing. -/
def Run.idle (r : Run) (w : World) (turns : List Turn) : Run :=
  { r with world := w, turns, trace := r.trace ++ [⟨.looked, w, w⟩] }

/-- The run after a step that others let the commit take in the world `w`. -/
def Run.act (r : Run) (w : World) (turns : List Turn) (deed : Deed) (w' : World) : Run :=
  { r with world := w', turns, trace := r.trace ++ [⟨deed, w, w'⟩] }

theorem interfere_cases (r : Run) (turn : Turn) :
    (r.interfere turn).disturbed = true ∨
      ∃ w, Settles r.watched r.world w ∧
        r.interfere turn = { r with world := w, turns := r.turns.tail } := by
  cases hd : (r.interfere turn).disturbed with
  | true => exact .inl rfl
  | false =>
    right
    obtain ⟨hbefore, hnow⟩ := Bool.or_eq_false_iff.1 hd
    refine ⟨_, settles_of_not_disturbs hnow, ?_⟩
    rw [Run.interfere]
    simp only [hnow, Bool.or_false]

theorem interfere_spoiled (h : Spoiled r) (turn : Turn) : (r.interfere turn).disturbed = true := by
  rw [Run.interfere, Bool.or_eq_true]
  exact .inl h

theorem spec_atomic {P : Run → Prop} {call : World → Except IoKind α × Deed × World}
    {Q : Except Failure (Except IoKind α) → Run → Prop}
    (hfault : ∀ r w turns (fault : Fault), P r → Settles r.watched r.world w →
      Q (.ok (.error fault.kind)) (r.idle w turns))
    (hcall : ∀ r w turns, P r → Settles r.watched r.world w →
      Q (.ok (call w).1) (r.act w turns (call w).2.1 (call w).2.2)) :
    Spec Spoiled P (atomic call) Q := by
  intro r
  rw [atomic]
  generalize r.turns.head?.getD {} = turn
  cases hfaulty : turn.fault with
  | some fault =>
    simp only
    refine ⟨fun hr => interfere_spoiled hr turn, fun hP => ?_⟩
    rcases interfere_cases r turn with hspoiled | ⟨w, hsettles, heq⟩
    · exact .inl hspoiled
    · rw [heq]
      exact .inr (hfault r w _ fault hP hsettles)
  | none =>
    simp only
    refine ⟨fun hr => interfere_spoiled hr turn, fun hP => ?_⟩
    rcases interfere_cases r turn with hspoiled | ⟨w, hsettles, heq⟩
    · exact .inl hspoiled
    · rw [heq]
      exact .inr (hcall r w _ hP hsettles)

/-- A system call never fails by itself: the code inspects its result. -/
theorem atomic_total (call : World → Except IoKind α × Deed × World) (r : Run) :
    ∃ result, (atomic call r).1 = .ok result := by
  rw [atomic]
  generalize r.turns.head?.getD {} = turn
  cases turn.fault with
  | some fault => exact ⟨_, rfl⟩
  | none => exact ⟨_, rfl⟩

/-- A fact about the run that a step without effect keeps. -/
def Stable (F : Run → Prop) : Prop :=
  ∀ r w turns, F r → Settles r.watched r.world w → F (r.idle w turns)

theorem Stable.and (hF : Stable F) (hG : Stable G) : Stable fun r => F r ∧ G r :=
  fun r w turns h hs => ⟨hF r w turns h.1 hs, hG r w turns h.2 hs⟩

theorem stable_const (p : Prop) : Stable fun _ => p := fun _ _ _ h _ => h

/-- Looking at the world keeps what is stable, and what is seen is seen in the world as it is. -/
theorem spec_observe {f : World → Except IoKind α} {Q : Except Failure (Except IoKind α) → Run → Prop}
    (hF : Stable F) (hQ : ∀ r, F r → Q (.ok (f r.world)) r)
    (hfault : ∀ r (fault : Fault), F r → Q (.ok (.error fault.kind)) r) :
    Spec Spoiled F (observe f) Q :=
  spec_atomic (fun r w turns fault h hs => hfault _ fault (hF r w turns h hs))
    fun r w turns h hs => hQ (r.idle w turns) (hF r w turns h hs)

theorem spec_keeps_observe {f : World → Except IoKind α} (hF : Stable F) :
    Spec Spoiled F (observe f) fun _ => F :=
  spec_observe hF (fun _ h => h) fun _ _ h => h

theorem spec_capture {x : Action Run Failure α} {Q : Except Failure (Except Failure α) → Run → Prop}
    (h : Spec Spoiled P x fun result r => Q (.ok result) r) : Spec Spoiled P (capture x) Q := h

theorem capture_total (x : Action Run Failure α) (r : Run) : ∃ a, (capture x r).1 = .ok a := ⟨_, rfl⟩

theorem spec_watch {P : Run → Prop} {Q : Except Failure Unit → Run → Prop}
    (h : ∀ r, P r → Q (.ok ()) { r with watched := places }) : Spec Spoiled P (watch places) Q :=
  Spec.modify (fun _ hr => hr) h

theorem spec_require {call : Action Run Failure (Except IoKind α)} {Q : Except Failure α → Run → Prop}
    (hcall : Spec Spoiled P call fun result r =>
      (∀ a, result = .ok (.ok a) → Q (.ok a) r) ∧ ∀ e, Q (.error e) r) :
    Spec Spoiled P (require call operation path) Q := by
  apply Spec.bind hcall
  · intro result
    cases result with
    | ok a => exact Spec.pure fun r h => h.1 a rfl
    | error kind => exact Spec.fail fun r h => h.2 _
  · intro e r h
    exact h.2 e

theorem spec_keeps_require {f : World → Except IoKind α} (hF : Stable F) :
    Spec Spoiled F (require (observe f) operation path) fun _ => F :=
  spec_require ((spec_keeps_observe hF).mono (fun _ h => h) fun _ _ h => ⟨fun _ _ => h, fun _ => h⟩)

theorem spec_parentIsCurrent (hF : Stable F) :
    Spec Spoiled F (parentIsCurrent path) fun _ => F := by
  apply Spec.bind (Spec.reads (Q := fun _ => F) fun _ h => h)
  · intro current
    apply Spec.bind (spec_keeps_require hF)
    · intro _
      exact Spec.pure fun _ h => h
    · exact fun _ _ h => h
  · exact fun _ _ h => h

/-! ### Reading a file -/

namespace FileStore

variable {fs : FileStore Hash}

/-- A look at a place that keeps what is stable, case by case. -/
theorem keeps_bind {x : Action Run Failure α} {f : α → Action Run Failure β}
    (hx : Spec Spoiled F x fun _ => F) (hf : ∀ a, Spec Spoiled F (f a) fun _ => F) :
    Spec Spoiled F (x >>= f) fun _ => F :=
  Spec.bind hx hf fun _ _ h => h

theorem keeps_pure (F : Run → Prop) (a : α) :
    Spec Spoiled F (pure a : Action Run Failure α) fun _ => F :=
  Spec.pure fun _ h => h

theorem keeps_fail (F : Run → Prop) (e : Failure) :
    Spec Spoiled F (fail e : Action Run Failure α) fun _ => F :=
  Spec.fail fun _ h => h

theorem keeps_ensureDocumentSize (F : Run → Prop) :
    Spec Spoiled F (fs.ensureDocumentSize path n) fun _ => F := by
  rw [ensureDocumentSize]
  split
  · exact keeps_fail F _
  · exact keeps_pure F _

/-- The outcomes of a look at an entry that end without another look. -/
theorem keeps_readOpened (hF : Stable F) :
    Spec Spoiled F (fs.readOpened p path entryBefore handle) fun _ => F := by
  apply keeps_bind (spec_keeps_require hF)
  intro before
  split
  · exact keeps_pure F _
  · apply keeps_bind (keeps_ensureDocumentSize F)
    intro _
    apply keeps_bind (spec_keeps_require hF)
    intro content
    apply keeps_bind (keeps_ensureDocumentSize F)
    intro _
    apply keeps_bind (spec_keeps_require hF)
    intro after
    apply keeps_bind (spec_keeps_observe hF)
    intro entry
    split
    · split
      · exact keeps_pure F _
      · exact keeps_pure F _
    · exact keeps_pure F _
    · exact keeps_pure F _
    · exact keeps_fail F _

theorem keeps_readObservationAt (hF : Stable F) :
    Spec Spoiled F (fs.readObservationAt p path) fun _ => F := by
  apply keeps_bind (spec_keeps_observe hF)
  intro entry
  split
  · apply keeps_bind (spec_keeps_observe hF)
    intro handle
    split
    · exact keeps_readOpened hF
    · exact keeps_pure F _
    · exact keeps_fail F _
  · exact keeps_pure F _
  · exact keeps_fail F _
  · exact keeps_pure F _
  · exact keeps_fail F _

theorem keeps_entryMissingAt (hF : Stable F) :
    Spec Spoiled F (entryMissingAt p path) fun _ => F := by
  apply keeps_bind (spec_keeps_observe hF)
  intro entry
  split
  · exact keeps_pure F _
  · exact keeps_pure F _
  · exact keeps_fail F _

theorem keeps_verifyOpened (hF : Stable F) :
    Spec Spoiled F (verifyOpened p path content metadata handle) fun _ => F := by
  apply keeps_bind (spec_keeps_require hF)
  intro before
  split
  · exact keeps_pure F _
  · apply keeps_bind (spec_keeps_require hF)
    intro found
    split
    · exact keeps_pure F _
    · apply keeps_bind (spec_keeps_require hF)
      intro after
      split
      · exact keeps_pure F _
      · apply keeps_bind (spec_keeps_observe hF)
        intro entry
        split
        · exact keeps_pure F _
        · exact keeps_pure F _
        · exact keeps_pure F _
        · exact keeps_fail F _

theorem keeps_verifyObservationAt (hF : Stable F) :
    Spec Spoiled F (verifyObservationAt p path content metadata) fun _ => F := by
  apply keeps_bind (spec_keeps_observe hF)
  intro entry
  split
  · split
    · exact keeps_pure F _
    · apply keeps_bind (spec_keeps_observe hF)
      intro handle
      split
      · exact keeps_verifyOpened hF
      · exact keeps_pure F _
      · exact keeps_fail F _
  · exact keeps_pure F _
  · exact keeps_pure F _
  · exact keeps_fail F _

/-- A watched place has nothing any more, or still has `o` and `fact` holds. -/
def Seen (p : Place) (o : Option (Nat × Node)) (fact : Prop) (r : Run) : Prop :=
  p ∈ r.watched ∧ (r.world.look p = none ∨ (r.world.look p = o ∧ fact))

theorem Seen.mono (h : Seen p o fact r) (himp : fact → fact') : Seen p o fact' r :=
  ⟨h.1, h.2.imp_right fun hp => ⟨hp.1, himp hp.2⟩⟩

theorem stable_seen (p : Place) (o : Option (Nat × Node)) (fact : Prop) : Stable (Seen p o fact) := by
  intro r w turns h hs
  refine ⟨h.1, ?_⟩
  rcases hs p h.1 with hnone | hsame
  · exact .inl hnone
  · change w.look p = none ∨ w.look p = o ∧ fact
    rw [hsame]
    exact h.2

/-- What a successful look adds to what is known of a place. -/
theorem seen_observe {f : World → Except IoKind α} {fact : Prop} {learnt : α → Prop}
    (h : ∀ w a, w.look p = o → fact → f w = .ok a → learnt a) :
    Spec Spoiled (Seen p o fact) (observe f) fun result r =>
      ∀ a, result = .ok (.ok a) → Seen p o (fact ∧ learnt a) r := by
  apply spec_observe (stable_seen p o fact)
  · intro r hr a ha
    refine ⟨hr.1, hr.2.imp_right fun hlook => ⟨hlook.1, hlook.2, ?_⟩⟩
    exact h r.world a hlook.1 hlook.2 (Except.ok.inj ha)
  · intro r kind _ a ha
    cases ha

theorem seen_require {f : World → Except IoKind α} {fact : Prop} {learnt : α → Prop}
    (h : ∀ w a, w.look p = o → fact → f w = .ok a → learnt a) :
    Spec Spoiled (Seen p o fact) (require (observe f) operation path) fun result r =>
      ∀ a, result = .ok a → Seen p o (fact ∧ learnt a) r := by
  apply spec_require
  refine (seen_observe h).mono (fun _ hs => hs) ?_
  intro result r hr
  refine ⟨fun a ha b hb => ?_, fun e a ha => ?_⟩
  · cases hb
    exact hr a ha
  · cases ha

theorem look_eq_some (h : World.look w p = some (inode, node)) : w.nodes inode = node := by
  obtain ⟨i, -, heq⟩ := Option.map_eq_some_iff.1 h
  cases heq
  rfl

/-- What is seen through a handle, when it is one of the file at the place. -/
theorem seen_fileMetadata (p : Place) (o : Option (Nat × Node)) (handle : Nat) (fact : Prop) :
    Spec Spoiled (Seen p o fact) (require (fileMetadata handle) operation path) fun result r =>
      ∀ a, result = .ok a →
        Seen p o (fact ∧ ∀ node, o = some (handle, node) → a = (node.kind, node.metadata)) r :=
  seen_require fun w a hlook _ ha node ho => by
    rw [look_eq_some (hlook.trans ho)] at ha
    exact (Except.ok.inj ha).symm

theorem seen_readFile (p : Place) (o : Option (Nat × Node)) (handle : Nat) (fact : Prop) :
    Spec Spoiled (Seen p o fact) (require (readFile handle) operation path) fun result r =>
      ∀ a, result = .ok a →
        Seen p o (fact ∧ ∀ node, o = some (handle, node) →
          ∃ modified readonly, node = .file a modified readonly) r :=
  seen_require fun w a hlook _ ha node ho => by
    rw [look_eq_some (hlook.trans ho)] at ha
    cases node with
    | file content modified readonly =>
      cases ha
      exact ⟨modified, readonly, rfl⟩
    | symlink => cases ha
    | directory => cases ha
    | other => cases ha

/-- A place that is looked at with success is still there. -/
theorem seen_present (p : Place) (o : Option (Nat × Node)) (fact : Prop) :
    Spec Spoiled (Seen p o fact) (symlinkMetadataAt p) fun result r =>
      ∀ a, result = .ok (.ok a) → fact ∧ Seen p o (∃ node inode, o = some (inode, node) ∧
        a = (node.kind, node.metadata)) r := by
  apply spec_observe (stable_seen p o fact)
  · intro r hr a ha
    rcases hr.2 with hnone | ⟨hlook, hfact⟩
    · rw [hnone] at ha
      cases ha
    · refine ⟨hfact, hr.1, .inr ⟨hlook, ?_⟩⟩
      rw [hlook] at ha
      cases o with
      | none => cases ha
      | some found =>
        obtain ⟨inode, node⟩ := found
        exact ⟨node, inode, rfl, (Except.ok.inj (Except.ok.inj ha)).symm⟩
  · intro r kind _ a ha
    cases ha

/-- What a present observation of an entry must be. -/
def Observed (o : Option (Nat × Node)) : Except Failure ReadObservation → Prop
  | .ok (.present content metadata) => ∃ inode modified readonly,
    o = some (inode, .file content modified readonly) ∧
      metadata = (Node.file content modified readonly).metadata
  | _ => True

theorem exact_readOpened (p : Place) (o : Option (Nat × Node)) :
    Spec Spoiled (Seen p o (∃ node, o = some (handle, node)))
      (fs.readOpened p path entryBefore handle) fun result _ => Observed o result := by
  apply Spec.bind (seen_fileMetadata p o handle _)
  · intro before
    split
    · exact Spec.pure fun _ _ => trivial
    · apply Spec.bind (keeps_ensureDocumentSize _)
      · intro _
        apply Spec.bind ((seen_readFile p o handle _).mono (fun r h => h before rfl) fun _ _ h => h)
        · intro content
          apply Spec.bind (keeps_ensureDocumentSize _)
          · intro _
            apply Spec.bind ((seen_fileMetadata p o handle _).mono (fun r h => h content rfl)
              fun _ _ h => h)
            · intro after
              apply Spec.bind ((seen_present p _ _).mono (fun r h => h after rfl) fun _ _ h => h)
              · intro entry
                split
                · split
                  · exact Spec.pure fun _ _ => trivial
                  · refine Spec.pure fun _ h => ?_
                    obtain ⟨⟨⟨⟨node, ho⟩, -⟩, hcontent⟩, hafter⟩ := (h _ rfl).1
                    obtain ⟨modified, readonly, rfl⟩ := hcontent node ho
                    exact ⟨handle, modified, readonly, ho, congrArg Prod.snd (hafter _ ho)⟩
                · exact Spec.pure fun _ _ => trivial
                · exact Spec.pure fun _ _ => trivial
                · exact Spec.fail fun _ _ => trivial
              · exact fun _ _ _ => trivial
            · exact fun _ _ _ => trivial
          · exact fun _ _ _ => trivial
        · exact fun _ _ _ => trivial
      · exact fun _ _ _ => trivial
  · exact fun _ _ _ => trivial

theorem seen_openAt (p : Place) (o : Option (Nat × Node)) :
    Spec Spoiled (Seen p o (∃ node inode, o = some (inode, node) ∧ node.kind = .file)) (openAt p)
      fun result r => ∀ handle, result = .ok (.ok handle) →
        Seen p o (∃ node, o = some (handle, node)) r := by
  apply spec_observe (stable_seen p o _)
  · intro r hr handle hhandle
    refine ⟨hr.1, hr.2.imp_right fun ⟨hlook, node, inode, ho, hkind⟩ => ⟨hlook, node, ?_⟩⟩
    rw [hlook, ho] at hhandle
    cases node with
    | file content modified readonly =>
      cases hhandle
      exact ho
    | symlink => cases hkind
    | directory => cases hkind
    | other => cases hkind
  · intro r kind _ a ha
    cases ha

theorem exact_readObservationAt (p : Place) (o : Option (Nat × Node)) :
    Spec Spoiled (Seen p o True) (fs.readObservationAt p path) fun result _ => Observed o result := by
  apply Spec.bind (seen_present p o True)
  · intro entry
    split
    next entryBefore =>
      apply Spec.bind ((seen_openAt p o).mono ?_ fun _ _ h => h)
      · intro opened
        split
        next handle => exact (exact_readOpened p o).mono (fun r h => h handle rfl) fun _ _ h => h
        next => exact Spec.pure fun _ _ => trivial
        next => exact Spec.fail fun _ _ => trivial
      · exact fun _ _ _ => trivial
      · intro r h
        exact (h _ rfl).2.mono fun ⟨node, inode, ho, hmeta⟩ =>
          ⟨node, inode, ho, (congrArg Prod.fst hmeta).symm⟩
    next => exact Spec.pure fun _ _ => trivial
    next => exact Spec.fail fun _ _ => trivial
    next => exact Spec.pure fun _ _ => trivial
    next => exact Spec.fail fun _ _ => trivial
  · exact fun _ _ _ => trivial

/-- The state of what a node holds, as a stable read reports it. -/
def stateOf (fs : FileStore Hash) : Node → DiskState Hash
  | .file content modified readonly =>
    .present content (fs.forContent (Node.file content modified readonly).metadata content)
  | _ => .missing

/-- There was nothing at the place at some moment of the run. -/
def WasMissing (p : Place) (r : Run) : Prop := ∃ event ∈ r.trace, event.after.look p = none

theorem missing_entryMissingAt (p : Place) :
    Spec Spoiled (fun _ => True) (entryMissingAt p path) fun result r =>
      result = .ok true → WasMissing p r := by
  have hlook : Spec Spoiled (fun _ => True) (symlinkMetadataAt p) fun result r =>
      result = .ok (.error .notFound) → WasMissing p r := by
    rw [symlinkMetadataAt, observe]
    apply spec_atomic
    · intro r w turns fault _ _ hfault
      cases fault <;> cases hfault
    · intro r w turns _ _ hresult
      refine ⟨⟨.looked, w, w⟩, List.mem_append_right _ (List.mem_singleton_self _), ?_⟩
      cases hlook : w.look p with
      | none => rfl
      | some found =>
        simp only [hlook] at hresult
        cases hresult
  apply Spec.bind hlook
  · intro entry
    split
    · exact Spec.pure fun _ _ h => by cases h
    · exact Spec.pure fun _ h _ => h rfl
    · exact Spec.fail fun _ _ h => by cases h
  · intro e r _ h
    cases h

theorem stable_true : Stable fun _ => True := stable_const True

/-- A stable read that finds nothing has seen that there was nothing. -/
theorem missing_stableReadAt (p : Place) :
    Spec Spoiled (fun _ => True) (fs.stableReadAt p path) fun result r =>
      result = .ok .missing → WasMissing p r := by
  rw [stableReadAt]
  generalize 4 = attempts
  induction attempts with
  | zero => exact Spec.fail fun _ _ h => by cases h
  | succ attempts ih =>
    have hattempt : Spec Spoiled (fun _ => True) (fs.stableAttempt p path) fun result r =>
        result = .ok (some .missing) → WasMissing p r := by
      apply Spec.bind (keeps_readObservationAt stable_true)
      · intro observation
        cases observation with
        | missing =>
          apply Spec.bind (missing_entryMissingAt p)
          · intro missing
            refine Spec.pure fun r h hresult => ?_
            cases missing with
            | false => cases hresult
            | true => exact h rfl
          · intro e r _ h
            cases h
        | present content metadata =>
          apply Spec.bind (keeps_verifyObservationAt stable_true)
          · intro verified
            cases verified <;> exact Spec.pure fun _ _ h => by cases h
          · intro e r _ h
            cases h
        | unstable => exact Spec.pure fun _ _ h => by cases h
      · intro e r _ h
        cases h
    apply Spec.bind hattempt
    · intro found
      cases found with
      | some state =>
        refine Spec.pure fun r h hresult => ?_
        cases hresult
        exact h rfl
      | none => exact ih.mono (fun _ _ => trivial) fun _ _ h => h
    · intro e r _ h
      cases h

/-- A file that a stable read of a watched place reports is the file there. -/
theorem present_stableReadAt (p : Place) (o : Option (Nat × Node)) :
    Spec Spoiled (Seen p o True) (fs.stableReadAt p path) fun result _ =>
      ∀ content fingerprint, result = .ok (.present content fingerprint) →
        ∃ inode node, o = some (inode, node) ∧ fs.stateOf node = .present content fingerprint := by
  rw [stableReadAt]
  generalize 4 = attempts
  induction attempts with
  | zero => exact Spec.fail fun _ _ _ _ h => by cases h
  | succ attempts ih =>
    have hattempt : Spec Spoiled (Seen p o True) (fs.stableAttempt p path) fun result r =>
        Seen p o True r ∧ ∀ content fingerprint, result = .ok (some (.present content fingerprint)) →
          ∃ inode node, o = some (inode, node) ∧ fs.stateOf node = .present content fingerprint := by
      apply Spec.bind
        ((keeps_readObservationAt (stable_seen p o True)).and (exact_readObservationAt p o))
      · intro observation
        cases observation with
        | missing =>
          apply Spec.bind ((keeps_entryMissingAt (stable_seen p o True)).mono (fun _ h => h.1)
            fun _ _ h => h)
          · intro missing
            refine Spec.pure fun r h => ⟨h, fun content fingerprint hresult => ?_⟩
            cases missing <;> cases hresult
          · exact fun e r h => ⟨h, fun _ _ hresult => by cases hresult⟩
        | present content metadata =>
          have hstable := (stable_seen p o True).and
            (stable_const (Observed o (.ok (.present content metadata))))
          apply Spec.bind (keeps_verifyObservationAt hstable)
          · intro verified
            cases verified with
            | false => exact Spec.pure fun r h => ⟨h.1, fun _ _ hresult => by cases hresult⟩
            | true =>
              refine Spec.pure fun r h => ⟨h.1, fun content' fingerprint hresult => ?_⟩
              cases hresult
              obtain ⟨inode, modified, readonly, ho, rfl⟩ := h.2
              exact ⟨inode, _, ho, rfl⟩
          · exact fun e r h => ⟨h.1, fun _ _ hresult => by cases hresult⟩
        | unstable => exact Spec.pure fun r h => ⟨h.1, fun _ _ hresult => by cases hresult⟩
      · exact fun e r h => ⟨h.1, fun _ _ hresult => by cases hresult⟩
    apply Spec.bind hattempt
    · intro found
      cases found with
      | some state =>
        refine Spec.pure fun r h content fingerprint hresult => ?_
        cases hresult
        exact h.2 content fingerprint rfl
      | none => exact ih.mono (fun _ h => h.1) fun _ _ h => h
    · exact fun e r _ _ _ hresult => by cases hresult

theorem keeps_stableReadAt (hF : Stable F) : Spec Spoiled F (fs.stableReadAt p path) fun _ => F := by
  rw [stableReadAt]
  generalize 4 = attempts
  induction attempts with
  | zero => exact keeps_fail F _
  | succ attempts ih =>
    apply keeps_bind
    · apply keeps_bind (keeps_readObservationAt hF)
      intro observation
      cases observation with
      | missing => exact keeps_bind (keeps_entryMissingAt hF) fun _ => keeps_pure F _
      | present content metadata =>
        apply keeps_bind (keeps_verifyObservationAt hF)
        intro verified
        cases verified <;> exact keeps_pure F _
      | unstable => exact keeps_pure F _
    · intro found
      cases found with
      | some state => exact keeps_pure F _
      | none => exact ih

end FileStore

end OhMyPi.Docserver
