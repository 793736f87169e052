import OhMyPi.Docserver.CommitSafety

/-! Moves, with and without new content, and what holds of every prepared commit. -/

namespace OhMyPi.Docserver

open Action FileStore

variable {Hash : Type} [DecidableEq Hash] {fs : FileStore Hash}

/-! ### Temporary names -/

/-- The value of a lower-case hexadecimal digit. -/
def hexValue (b : UInt8) : Nat := if 97 ≤ b.toNat then b.toNat - 87 else b.toNat - 48

theorem foldl_hexValue_toDigits (n : Nat) :
    (asciiName (Nat.toDigits 16 n)).foldl (fun v b => 16 * v + hexValue b) 0 = n := by
  induction n using Nat.strongRecOn with
  | _ n ih =>
    have hdigit : ∀ d < 16, hexValue (Nat.digitChar d).toNat.toUInt8 = d := by decide
    rw [asciiName, Nat.toDigits_eq_if (by decide)]
    split
    next hlt =>
      rw [List.map_singleton, List.foldl_cons, List.foldl_nil, hdigit n hlt]
      omega
    next hge =>
      have hfront := ih (n / 16) (by omega)
      rw [asciiName] at hfront
      rw [List.map_append, List.foldl_append, hfront, List.map_singleton,
        List.foldl_cons, List.foldl_nil, hdigit _ (Nat.mod_lt n (by decide))]
      omega

theorem foldl_hexValue_hex16 (n : Nat) :
    (asciiName (hex16 n)).foldl (fun v b => 16 * v + hexValue b) 0 = n := by
  have hzeros : ∀ k : Nat,
      (asciiName (List.replicate k '0')).foldl (fun v b => 16 * v + hexValue b) 0 = 0 := by
    intro k
    induction k with
    | zero => rfl
    | succ k ih => exact ih
  have hsplit : asciiName (hex16 n) =
      asciiName (List.replicate (16 - (Nat.toDigits 16 n).length) '0') ++
        asciiName (Nat.toDigits 16 n) := List.map_append
  rw [hsplit, List.foldl_append, hzeros, foldl_hexValue_toDigits]

theorem temporaryName_inj (h : fs.temporaryName m = fs.temporaryName n) : m = n := by
  rw [temporaryName, temporaryName] at h
  have hdigits := List.append_cancel_left (List.append_cancel_right h)
  rw [← foldl_hexValue_hex16 m, hdigits, foldl_hexValue_hex16]

/-! ### Moves -/

/-- What the terms of a move are, with the file staged for its content. -/
def PreparedMove.terms (fs : FileStore Hash) (prepared : PreparedMove Hash)
    (staged : Option (Nat × Node)) : Terms Hash where
  fs := fs
  own p := p = prepared.source.place ∨ p = prepared.destination.place ∨
    (∃ content, prepared.content = some content ∧ (p = content.temporary ∨ p = content.destination)) ∨
      ∃ n, p = ⟨prepared.source.parent, fs.temporaryName n⟩
  staged := staged
  expects p state :=
    (p = prepared.source.place ∧ expectationMatches prepared.source.expected state = true) ∨
    (p = prepared.destination.place ∧
      expectationMatches prepared.destination.expected state = true) ∨
    ∃ content, prepared.content = some content ∧ p = content.destination ∧
      expectationMatches content.expected state = true

/-- The temporary of a staged write has what was staged, under a name given out before. -/
structure StagedAt (t : Terms Hash) (fs : FileStore Hash) (content : PreparedWrite Hash) (r : Run) :
    Prop where
  watched : content.temporary ∈ r.watched
  temporary : r.world.look content.temporary = none ∨ r.world.look content.temporary = t.staged
  name : ∃ k, k < r.sequence ∧ content.temporaryName = fs.temporaryName k

/-- Before a move has touched anything. -/
structure MoveReady (t : Terms Hash) (fs : FileStore Hash) (prepared : PreparedMove Hash)
    (source : Option (Nat × Node)) (r : Run) : Prop where
  spares : t.Spares r.trace
  watched : prepared.source.place ∈ r.watched
  source : r.world.look prepared.source.place = none ∨ r.world.look prepared.source.place = source
  staged : ∀ content, prepared.content = some content → StagedAt t fs content r

theorem stable_moveReady (t : Terms Hash) (prepared : PreparedMove Hash)
    (source : Option (Nat × Node)) : Stable (MoveReady t fs prepared source) := by
  intro r w turns h hs
  refine ⟨h.spares.idle, h.watched, (stable_look _ _ r w turns ⟨h.watched, h.source⟩ hs).2, ?_⟩
  intro content hcontent
  have hstaged := h.staged content hcontent
  exact ⟨hstaged.watched, (stable_look _ _ r w turns ⟨hstaged.watched, hstaged.temporary⟩ hs).2,
    hstaged.name⟩

/-- The source was read and is as expected. -/
def Checked (fs : FileStore Hash) (prepared : PreparedMove Hash) (source : Option (Nat × Node))
    (state : DiskState Hash) : Prop :=
  ∃ inode node, source = some (inode, node) ∧ fs.stateOf node = state ∧
    expectationMatches prepared.source.expected state = true

theorem spec_checkMove (t : Terms Hash) (prepared : PreparedMove Hash)
    (hexpected : prepared.source.expected = .present expected) (source : Option (Nat × Node)) :
    Spec Spoiled (MoveReady t fs prepared source) (fs.checkMove prepared) fun result r =>
      MoveReady t fs prepared source r ∧
        ∀ state, result = .ok state → Checked fs prepared source state := by
  have hstable : Stable (MoveReady t fs prepared source) := stable_moveReady t prepared source
  have hfail : ∀ (e : Failure), Spec Spoiled (MoveReady t fs prepared source)
      (Action.fail e : Action Run Failure (DiskState Hash)) fun result r =>
        MoveReady t fs prepared source r ∧
          ∀ state, result = .ok state → Checked fs prepared source state :=
    fun e => Spec.fail fun r h => ⟨h, fun _ hstate => by cases hstate⟩
  rw [checkMove]
  split
  · exact hfail _
  · apply Spec.bind (spec_parentIsCurrent hstable)
    · intro current
      split
      · exact hfail _
      · apply Spec.bind (spec_parentIsCurrent hstable)
        · intro current
          split
          · exact hfail _
          · split
            · exact hfail _
            · have hread : Spec Spoiled (MoveReady t fs prepared source)
                  (fs.stableExpectedState prepared.source) fun result r =>
                    ∀ state, result = .ok state → ∀ content fingerprint,
                      state = .present content fingerprint →
                        ∃ inode node, source = some (inode, node) ∧ fs.stateOf node = state := by
                apply spec_stableExpectedState
                refine (present_stableReadAt _ source).mono (fun r h => ⟨h.watched,
                  h.source.imp_right fun hlook => ⟨hlook, trivial⟩⟩) ?_
                intro result r h state hstate content fingerprint heq
                subst heq
                exact h content fingerprint hstate
              apply Spec.bind ((keeps_stableExpectedState hstable _).and hread)
              · intro state
                split
                next =>
                  exact Spec.fail fun r h => ⟨h.1, fun _ hstate => by cases hstate⟩
                next hmatches =>
                  refine Spec.pure fun r h => ⟨h.1, fun state' hstate => ?_⟩
                  cases hstate
                  have hmatches' : expectationMatches prepared.source.expected state = true := by
                    simpa using hmatches
                  cases state with
                  | missing =>
                    rw [hexpected] at hmatches'
                    cases hmatches'
                  | present content fingerprint =>
                    obtain ⟨inode, node, hsource, hnode⟩ := h.2 _ rfl content fingerprint rfl
                    exact ⟨inode, node, hsource, hnode, hmatches'⟩
              · exact fun e r h => ⟨h.1, fun _ hstate => by cases hstate⟩
        · exact fun e r h => ⟨h, fun _ hstate => by cases hstate⟩
    · exact fun e r h => ⟨h, fun _ hstate => by cases hstate⟩

/-- How a move ends. -/
def MoveDone (t : Terms Hash) (p : Place) (result : Except Failure (DiskState Hash)) (r : Run) : Prop :=
  t.Spares r.trace ∧ ∀ state, result = .ok state → t.Installed r.trace p state

theorem MoveDone.error {t : Terms Hash} (h : t.Spares r.trace) : MoveDone t p (.error e) r :=
  ⟨h, fun _ hstate => by cases hstate⟩

theorem MoveDone.ok {t : Terms Hash} (h : t.Spares r.trace) (hinstalled : t.Installed r.trace p state) :
    MoveDone t p (.ok state) r :=
  ⟨h, fun _ hstate => Except.ok.inj hstate ▸ hinstalled⟩

/-- The source that a move renames is the one that was checked. -/
theorem MoveReady.found_eq {t : Terms Hash} (h : MoveReady t fs prepared o r)
    (hs : Settles r.watched r.world w) (hlook : w.look prepared.source.place = some x) :
    o = some x := by
  rcases (stable_look _ o r w r.turns ⟨h.watched, h.source⟩ hs).2 with hnone | hsame
  · exact absurd (hnone.symm.trans hlook) (by simp)
  · exact hsame.symm.trans hlook

/-- After the exchange of a move: the source name has the displaced file. -/
structure Moved (t : Terms Hash) (prepared : PreparedMove Hash) (state : DiskState Hash)
    (displaced : Nat × Node) (r : Run) : Prop where
  spares : t.Spares r.trace
  watched : prepared.source.place ∈ r.watched
  source : r.world.look prepared.source.place = none ∨
    r.world.look prepared.source.place = some displaced
  taken : ∃ event ∈ r.trace, prepared.destination.place ∈ event.deed.takes ∧
    event.before.look prepared.destination.place = some displaced
  installed : t.Installed r.trace prepared.destination.place state

theorem stable_moved (t : Terms Hash) (prepared : PreparedMove Hash) (state : DiskState Hash)
    (displaced : Nat × Node) : Stable (Moved t prepared state displaced) := by
  intro r w turns h hs
  obtain ⟨event, hmem, htaken⟩ := h.taken
  exact {
    spares := h.spares.idle
    watched := h.watched
    source := (stable_look _ _ r w turns ⟨h.watched, h.source⟩ hs).2
    taken := ⟨event, List.mem_append_left _ hmem, htaken⟩
    installed := h.installed.append }

theorem spec_settleMove (prepared : PreparedMove Hash) (staged : Option (Nat × Node))
    (hexpected : prepared.destination.expected = .present expected) (state : DiskState Hash)
    (displaced : Nat × Node) :
    Spec Spoiled (Moved (prepared.terms fs staged) prepared state displaced)
      (fs.settleMove prepared expected state)
      (MoveDone (prepared.terms fs staged) prepared.destination.place) := by
  apply Spec.bind_total (fun _ => ⟨_, rfl⟩)
    (spec_readDisplaced (stable_moved _ prepared state displaced) fun _ h => ⟨h.watched, h.source⟩)
  intro read
  cases hagrees : readAgrees expected read with
  | false =>
    have hback : Spec Spoiled (Moved (prepared.terms fs staged) prepared state displaced)
        (renameExchange prepared.source.place prepared.destination.place) fun result r =>
          (∀ kind, result = .ok (.error kind) →
            Moved (prepared.terms fs staged) prepared state displaced r) ∧
          (prepared.terms fs staged).Spares r.trace := by
      apply spec_renameExchange
      · intro r w turns kind h hs
        exact ⟨fun _ _ => stable_moved _ _ _ _ r w turns h hs, h.spares.idle⟩
      · intro r w turns w' x y h hs hw
        exact ⟨fun _ hresult => (by cases hresult),
          h.spares.exchanged hw (.inl rfl) (.inr (.inl rfl))⟩
    apply Spec.bind_total (atomic_total _) (hback.mono (fun _ h => h.1) fun _ _ h => h)
    intro result
    cases result with
    | ok _ => exact Spec.fail fun r h => .error h.2
    | error kind => exact Spec.pure fun r h => .ok h.2 (h.1 kind rfl).installed
  | true =>
    apply Spec.bind_total (atomic_total _) (((prepared.terms fs staged).spec_removeFile
      (Terms.lasting_installed _ prepared.destination.place state)).mono ?_ fun _ _ h => h)
    · intro _
      exact Spec.pure fun r h => .ok h.1 h.2
    · intro r h
      have hmatches := h.2 read expected rfl hagrees
      obtain ⟨event, hmem, htakes, hlook⟩ := h.1.taken
      have hfine : (prepared.terms fs staged).Fine r.trace displaced :=
        .inr ⟨event, hmem, _, htakes, displaced.2, hlook, .inr (.inl ⟨rfl, hexpected ▸ hmatches⟩)⟩
      exact ⟨h.1.spares, ⟨h.1.watched, Terms.free_of_look h.1.source hfine⟩, h.1.installed⟩

theorem spec_commitRename (prepared : PreparedMove Hash) (staged source : Option (Nat × Node))
    (state : DiskState Hash) :
    Spec Spoiled (fun r => MoveReady (prepared.terms fs staged) fs prepared source r ∧
        Checked fs prepared source state) (fs.commitRename prepared state)
      (MoveDone (prepared.terms fs staged) prepared.destination.place) := by
  have hinstalled : ∀ {trace : List Event} {deed : Deed} {w w' : World} {found : Nat × Node},
      Checked fs prepared source state → source = some found → prepared.destination.place ∈ deed.puts →
        w'.look prepared.destination.place = some found →
          (prepared.terms fs staged).Installed (trace ++ [⟨deed, w, w'⟩])
            prepared.destination.place state := by
    intro trace deed w w' found hchecked hfound hputs hplaced
    obtain ⟨inode, node, hsource, hstate, -⟩ := hchecked
    cases hsource.symm.trans hfound
    exact ⟨_, List.mem_append_right _ (List.mem_singleton_self _), hputs, inode, node, hplaced, hstate⟩
  rw [commitRename]
  split
  next =>
    have hrename : Spec Spoiled (fun r => MoveReady (prepared.terms fs staged) fs prepared source r ∧
        Checked fs prepared source state) (renameNoreplace prepared.source.place prepared.destination.place) fun result r =>
          (prepared.terms fs staged).Spares r.trace ∧ (result = .ok (.ok ()) →
            (prepared.terms fs staged).Installed r.trace prepared.destination.place state) := by
      apply spec_renameNoreplace
      · intro r w turns kind h hs
        exact ⟨h.1.spares.idle, fun hresult => by cases hresult⟩
      · intro r w turns w' found h hs hw
        exact ⟨h.1.spares.renamed hw (.inr (.inl rfl)), fun _ =>
          hinstalled h.2 (h.1.found_eq hs hw.source) (List.mem_singleton_self _) hw.placed⟩
    apply Spec.bind_total (atomic_total _) hrename
    intro result
    split
    · exact Spec.pure fun r h => .ok h.1 (h.2 rfl)
    · exact Spec.fail fun r h => .error h.1
    · exact Spec.fail fun r h => .error h.1
    · exact Spec.fail fun r h => .error h.1
  next expected hexpected =>
    have hexchange : Spec Spoiled (fun r => MoveReady (prepared.terms fs staged) fs prepared source r ∧
        Checked fs prepared source state) (renameExchange prepared.source.place prepared.destination.place) fun result r =>
          (prepared.terms fs staged).Spares r.trace ∧ (result = .ok (.ok ()) →
            ∃ displaced, Moved (prepared.terms fs staged) prepared state displaced
              { r with watched := [prepared.source.place] }) := by
      apply spec_renameExchange
      · intro r w turns kind h hs
        exact ⟨h.1.spares.idle, fun hresult => by cases hresult⟩
      · intro r w turns w' x y h hs hw
        have hspares := h.1.spares.exchanged hw (.inl rfl) (.inr (.inl rfl))
        refine ⟨hspares, fun _ => ⟨y, ?_⟩⟩
        exact {
          spares := hspares
          watched := List.mem_singleton_self _
          source := .inr hw.taken
          taken := ⟨_, List.mem_append_right _ (List.mem_singleton_self _),
            List.mem_cons_of_mem _ (List.mem_singleton_self _), hw.destination⟩
          installed := hinstalled h.2 (h.1.found_eq hs hw.source)
            (List.mem_cons_of_mem _ (List.mem_singleton_self _)) hw.placed }
    apply Spec.bind_total (atomic_total _) hexchange
    intro result
    split
    · exact Spec.fail fun r h => .error h.1
    · exact Spec.fail fun r h => .error h.1
    · exact Spec.fail fun r h => .error h.1
    · apply Spec.bind_total (fun _ => ⟨_, rfl⟩) (spec_watch (Q := fun _ r => ∃ displaced,
        Moved (prepared.terms fs staged) prepared state displaced r) fun r h => h.2 rfl)
      intro _
      exact Spec.exists_left (0, Node.other) (spec_settleMove prepared staged hexpected state)

/-- The source has gone into quarantine and the staged content is still to be installed. -/
structure Emptied (t : Terms Hash) (content : PreparedWrite Hash) (quarantined : Place) (r : Run) :
    Prop where
  spares : t.Spares r.trace
  temporary : r.world.look content.temporary = none ∨ r.world.look content.temporary = t.staged
  free : t.Free quarantined r

/-- What a move with content has before its write: on failure nothing but the staged file to drop. -/
def PutAway (t : Terms Hash) (prepared : PreparedMove Hash) (content : PreparedWrite Hash) :
    Except Failure PathWalk.Name → Run → Prop
  | .ok name, r => (⟨prepared.source.parent, name⟩ : Place) ≠ content.temporary ∧
    Emptied t content ⟨prepared.source.parent, name⟩ r
  | .error _, r => t.Spares r.trace ∧ content.temporary ∈ r.watched ∧ t.Free content.temporary r

theorem MoveReady.putAway {t : Terms Hash} (h : MoveReady t fs prepared o r)
    (hcontent : prepared.content = some content) : PutAway t prepared content (.error e) r := by
  have hstaged := h.staged content hcontent
  refine ⟨h.spares, hstaged.watched, fun found hfound => ?_⟩
  rcases hstaged.temporary with hnone | hsame
  · rw [hnone] at hfound
    cases hfound
  · exact .inl (hsame.symm.trans hfound)

theorem spec_putAway (prepared : PreparedMove Hash) (hcontent : prepared.content = some content)
    (staged source : Option (Nat × Node)) (state : DiskState Hash) :
    Spec Spoiled (fun r => MoveReady (prepared.terms fs staged) fs prepared source r ∧
        Checked fs prepared source state)
      (fs.quarantine prepared.source (.persistence prepared.source.path .notFound) 128)
      (PutAway (prepared.terms fs staged) prepared content) := by
  apply spec_quarantine ((stable_moveReady _ prepared source).and (stable_const _))
  · intro r h
    refine ⟨⟨h.1.spares, h.1.watched, h.1.source, fun content' hcontent' => ?_⟩, h.2⟩
    obtain ⟨hwatched, htemporary, k, hk, hname⟩ := h.1.staged content' hcontent'
    exact ⟨hwatched, htemporary, k, Nat.lt_succ_of_lt hk, hname⟩
  · intro r w turns w' found hready hs hw
    obtain ⟨h, inode, node, hsource, hstate, hmatches⟩ := hready
    obtain ⟨hwatched, htemporary, k, hk, hname⟩ := h.staged content hcontent
    have hapart : (⟨prepared.source.parent, fs.temporaryName r.sequence⟩ : Place) ≠
        content.temporary := by
      intro heq
      have hsame : fs.temporaryName r.sequence = fs.temporaryName k :=
        (congrArg Place.name heq).trans hname
      exact absurd (temporaryName_inj hsame) (Nat.ne_of_gt hk)
    have hfound := h.found_eq hs hw.source
    cases hsource.symm.trans hfound
    refine ⟨hapart, h.spares.renamed hw (.inr (.inr (.inr ⟨r.sequence, rfl⟩))), ?_, ?_⟩
    · -- the temporary is another place than the quarantine, and gone if it was the source
      cases (inferInstance : Decidable (content.temporary = prepared.source.place)) with
      | isTrue heq => exact .inl (heq ▸ hw.gone)
      | isFalse hne =>
        change w'.look content.temporary = none ∨ w'.look content.temporary = staged
        rw [hw.rest _ hne (Ne.symm hapart)]
        exact (stable_look _ _ r w turns ⟨hwatched, htemporary⟩ hs).2
    · intro found' hfound'
      cases hw.placed.symm.trans hfound'
      exact .inr ⟨_, List.mem_append_right _ (List.mem_singleton_self _), _,
        List.mem_singleton_self _, node, hw.source, .inl ⟨rfl, by rw [← hstate] at hmatches; exact hmatches⟩⟩
  · exact fun r e h => h.1.putAway hcontent

/-- The write of a move with content, while the quarantined source waits. -/
theorem spec_heldWrite {t : Terms Hash} (ht : WriteTerms t fs content) (quarantined : Place) :
    Spec Spoiled (fun r => quarantined ≠ content.temporary ∧ Emptied t content quarantined r)
      (capture (fs.commitPrepared content [quarantined])) fun result r =>
        quarantined ≠ content.temporary ∧ t.Spares r.trace ∧ ∀ state, result = .ok (.ok state) →
          (∀ p, Besides [quarantined] content.temporary p → p ∈ r.watched ∧ t.Free p r) ∧
            t.Installed r.trace content.destination state := by
  apply spec_capture
  refine ((spec_commitPrepared ht).frame (quarantined ≠ content.temporary)).mono ?_ ?_
  · intro r h
    refine ⟨h.1, h.2.spares, h.2.temporary, fun p hp => ?_⟩
    cases List.mem_singleton.1 hp
    exact h.2.free
  · intro result r h
    exact ⟨h.1, h.2.1, fun state hstate => h.2.2 state (Except.ok.inj hstate)⟩

theorem spec_commitMoveWithContent (prepared : PreparedMove Hash)
    (hcontent : prepared.content = some content) (source : Option (Nat × Node))
    (hstaged : fs.stateOf node = content.installedState) (state : DiskState Hash) :
    Spec Spoiled (fun r => MoveReady (prepared.terms fs (some (inode, node))) fs prepared source r ∧
        Checked fs prepared source state)
      (fs.commitMoveWithContent prepared content)
      (MoveDone (prepared.terms fs (some (inode, node))) content.destination) := by
  generalize ht : prepared.terms fs (some (inode, node)) = t
  have hterms : WriteTerms t fs content := by
    subst ht
    exact {
      store := rfl
      own_temporary := .inr (.inr (.inl ⟨content, hcontent, .inl rfl⟩))
      own_destination := .inr (.inr (.inl ⟨content, hcontent, .inr rfl⟩))
      staged := ⟨inode, node, rfl, hstaged⟩
      expects := fun state' hmatches => .inr (.inr ⟨content, hcontent, rfl, hmatches⟩) }
  have hstable : Stable fun r => MoveReady t fs prepared source r ∧ Checked fs prepared source state :=
    (stable_moveReady t prepared source).and (stable_const _)
  have hputAway : Spec Spoiled
      (fun r => MoveReady t fs prepared source r ∧ Checked fs prepared source state) (do
        let state ← fs.stableExpectedState prepared.destination
        if !expectationMatches prepared.destination.expected state then
          Action.fail prepared.destination.staleEntry
        else
          fs.quarantine prepared.source (.persistence prepared.source.path .notFound) 128)
      (PutAway t prepared content) := by
    apply Spec.bind (keeps_stableExpectedState hstable _)
    · intro state'
      split
      · exact Spec.fail fun r h => h.1.putAway hcontent
      · rw [← ht]
        exact spec_putAway prepared hcontent _ source state
    · exact fun e r h => h.1.putAway hcontent
  have hcapture : Spec Spoiled
      (fun r => MoveReady t fs prepared source r ∧ Checked fs prepared source state) (capture (do
        let state ← fs.stableExpectedState prepared.destination
        if !expectationMatches prepared.destination.expected state then
          Action.fail prepared.destination.staleEntry
        else
          fs.quarantine prepared.source (.persistence prepared.source.path .notFound) 128))
      fun result r => ∀ done, result = .ok done → PutAway t prepared content done r := by
    apply spec_capture
    refine hputAway.mono (fun _ h => h) fun result r h done hdone => ?_
    cases hdone
    exact h
  apply Spec.bind_total (capture_total _) hcapture
  intro checked
  cases checked with
  | error e =>
    apply Spec.bind ((spec_dropPrepared content).mono (fun r h => h _ rfl) fun _ _ h => h)
    · intro _
      exact Spec.fail fun r h => .error h
    · exact fun e r h => .error h
  | ok name =>
    apply Spec.bind_total (capture_total _) ((spec_heldWrite hterms
      ⟨prepared.source.parent, name⟩).mono (fun r h => h _ rfl) fun _ _ h => h)
    intro result
    cases result with
    | ok installed =>
      apply Spec.bind_total (atomic_total _) ((t.spec_removeFile
        (t.lasting_installed content.destination installed)).mono ?_ fun _ _ h => h)
      · intro _
        exact Spec.pure fun r h => .ok h.1 h.2
      · intro r h
        obtain ⟨hfree, hinstalled⟩ := h.2.2 installed rfl
        exact ⟨h.2.1, hfree _ ⟨List.mem_singleton_self _, h.1⟩, hinstalled⟩
    | error e =>
      have hback : Spec Spoiled (fun r => t.Spares r.trace)
          (renameNoreplace ⟨prepared.source.parent, name⟩ prepared.source.place)
          fun _ r => t.Spares r.trace := by
        apply spec_renameNoreplace
        · intro r w turns kind h hs
          exact h.idle
        · intro r w turns w' found h hs hw
          exact h.renamed hw (ht ▸ .inl rfl)
      apply Spec.bind_total (atomic_total _) (hback.mono (fun r h => h.2.1) fun _ _ h => h)
      intro result
      cases result with
      | ok _ => exact Spec.fail fun r h => .error h
      | error kind => exact Spec.fail fun r h => .error h

theorem spec_commitPreparedMove (prepared : PreparedMove Hash)
    (hexpected : prepared.source.expected = .present expected) (staged source : Option (Nat × Node))
    (hstaged : ∀ content, prepared.content = some content → ∃ inode node,
      staged = some (inode, node) ∧ fs.stateOf node = content.installedState) :
    Spec Spoiled (fun r => (prepared.terms fs staged).Spares r.trace ∧
        r.world.look prepared.source.place = source ∧
        ∀ content, prepared.content = some content → r.world.look content.temporary = staged ∧
          ∃ k, k < r.sequence ∧ content.temporaryName = fs.temporaryName k)
      (fs.commitPreparedMove prepared)
      (MoveDone (prepared.terms fs staged) (prepared.content.elim prepared.destination.place
        (·.destination))) := by
  have hwatch : Spec Spoiled (fun r => (prepared.terms fs staged).Spares r.trace ∧
        r.world.look prepared.source.place = source ∧
        ∀ content, prepared.content = some content → r.world.look content.temporary = staged ∧
          ∃ k, k < r.sequence ∧ content.temporaryName = fs.temporaryName k)
      (watch (prepared.source.place :: (prepared.content.map (·.temporary)).toList))
      fun _ => MoveReady (prepared.terms fs staged) fs prepared source := by
    apply spec_watch
    intro r h
    refine ⟨h.1, List.mem_cons_self, .inr h.2.1, fun content hcontent => ?_⟩
    obtain ⟨hlook, hname⟩ := h.2.2 content hcontent
    refine ⟨List.mem_cons_of_mem _ ?_, .inr hlook, hname⟩
    rw [hcontent]
    exact List.mem_singleton_self _
  have hcheck : Spec Spoiled (MoveReady (prepared.terms fs staged) fs prepared source)
      (fs.checkMove prepared) fun result r =>
        MoveReady (prepared.terms fs staged) fs prepared source r ∧
          ∀ state, result = .ok state → Checked fs prepared source state :=
    spec_checkMove _ prepared hexpected source
  apply Spec.bind_total (fun _ => ⟨_, rfl⟩) hwatch
  intro _
  cases hcontent : prepared.content with
  | none =>
    apply Spec.bind hcheck
    · intro state
      exact (spec_commitRename prepared staged source state).mono
        (fun r h => ⟨h.1, h.2 state rfl⟩) fun _ _ h => h
    · exact fun e r h => .error h.1.spares
  | some content =>
    obtain ⟨inode, node, rfl, hstate⟩ := hstaged content hcontent
    have hcapture : Spec Spoiled (MoveReady (prepared.terms fs (some (inode, node))) fs prepared source)
        (capture (fs.checkMove prepared)) fun result r =>
          MoveReady (prepared.terms fs (some (inode, node))) fs prepared source r ∧
            ∀ state, result = .ok (.ok state) → Checked fs prepared source state := by
      apply spec_capture
      refine hcheck.mono (fun _ h => h) fun result r h => ⟨h.1, fun state hok => ?_⟩
      exact h.2 state (Except.ok.inj hok)
    apply Spec.bind_total (capture_total _) hcapture
    intro checked
    cases checked with
    | ok state =>
      exact (spec_commitMoveWithContent prepared hcontent source hstate state).mono
        (fun r h => ⟨h.1, h.2 state rfl⟩) fun _ _ h => h
    | error e =>
      have hdrop := spec_dropPrepared (t := prepared.terms fs (some (inode, node))) content
      apply Spec.bind (hdrop.mono (fun r h => h.1.putAway (e := e) hcontent) fun _ _ h => h)
      · intro _
        exact Spec.fail fun r h => .error h
      · exact fun e r h => .error h

/-! ### Every prepared commit -/

def PreparedWrite.terms (fs : FileStore Hash) (prepared : PreparedWrite Hash)
    (staged : Option (Nat × Node)) : Terms Hash where
  fs := fs
  own p := p = prepared.temporary ∨ p = prepared.destination
  staged := staged
  expects p state := p = prepared.destination ∧ expectationMatches prepared.expected state = true

/-- A prepared change of the file system, to be committed. -/
inductive Job (Hash : Type) where
  | write (prepared : PreparedWrite Hash)
  | delete (prepared : PreparedDelete Hash)
  | move (prepared : PreparedMove Hash)

namespace Job

def commit (fs : FileStore Hash) : Job Hash → Action Run Failure (DiskState Hash)
  | .write prepared => fs.commitPrepared prepared []
  | .delete prepared => fs.commitPreparedDelete prepared
  | .move prepared => fs.commitPreparedMove prepared

/-- The content that waits in a temporary. -/
def content : Job Hash → Option (PreparedWrite Hash)
  | .write prepared => some prepared
  | .delete _ => none
  | .move prepared => prepared.content

def terms (fs : FileStore Hash) (staged : Option (Nat × Node)) : Job Hash → Terms Hash
  | .write prepared => prepared.terms fs staged
  | .delete prepared => prepared.terms fs
  | .move prepared => prepared.terms fs staged

/-- The file staged for the job. -/
def staged (job : Job Hash) (r : Run) : Option (Nat × Node) :=
  job.content.bind fun content => r.world.look content.temporary

/-- What a returned state must be: that of the file the commit put in place, or for a deletion that
there was nothing any more. -/
def Succeeded (t : Terms Hash) (state : DiskState Hash) (r : Run) : Job Hash → Prop
  | .write prepared => t.Installed r.trace prepared.destination state
  | .delete prepared => state = .missing ∧ WasMissing prepared.target.place r
  | .move prepared => t.Installed r.trace
    (prepared.content.elim prepared.destination.place (·.destination)) state

/-- The commit that starts from `r` destroys no unobserved bytes and reports what it installed. -/
def Safe (fs : FileStore Hash) (job : Job Hash) (r : Run) : Prop :=
  (job.terms fs (job.staged r)).Spares (job.commit fs r).2.trace ∧
    ∀ state, (job.commit fs r).1 = .ok state →
      job.Succeeded (job.terms fs (job.staged r)) state (job.commit fs r).2

/-- The start of a commit of a job as `prepare_write`, `prepare_delete`, `prepare_move` and
`prepare_move_with_content` make it. -/
structure Prepared (fs : FileStore Hash) (job : Job Hash) (r : Run) : Prop where
  trace : r.trace = []
  undisturbed : r.disturbed = false
  staged : ∀ content, job.content = some content → ∃ inode node,
    r.world.look content.temporary = some (inode, node) ∧ fs.stateOf node = content.installedState
  name : ∀ content, job.content = some content →
    ∃ k, k < r.sequence ∧ content.temporaryName = fs.temporaryName k
  source : ∀ prepared, job = .move prepared → ∃ expected, prepared.source.expected = .present expected

theorem Prepared.spares {job : Job Hash} (h : job.Prepared fs r) (t : Terms Hash) :
    t.Spares r.trace := by
  rw [h.trace]
  intro event hmem
  cases hmem

/-- A job is committed safely whatever others do, unless they put something else at a place the
commit relies on just then: its temporary, the destination between an exchange and its undoing, the
name of a quarantined file, the source of a move until it has been moved. -/
theorem commit_safe (job : Job Hash) (r : Run) (hprepared : job.Prepared fs r)
    (hundisturbed : (job.commit fs r).2.disturbed = false) : job.Safe fs r := by
  have hunspoiled : ¬ Spoiled (job.commit fs r).2 := by
    intro hspoiled
    exact Bool.false_ne_true (hundisturbed.symm.trans hspoiled)
  cases job with
  | write prepared =>
    obtain ⟨inode, node, hlook, hstate⟩ := hprepared.staged prepared rfl
    have hterms : WriteTerms (prepared.terms fs (r.world.look prepared.temporary)) fs prepared := {
      store := rfl
      own_temporary := .inl rfl
      own_destination := .inr rfl
      staged := ⟨inode, node, hlook, hstate⟩
      expects := fun state hmatches => ⟨rfl, hmatches⟩ }
    have hnone : ∀ p ∈ ([] : List Place),
        (prepared.terms fs (r.world.look prepared.temporary)).Free p r := by
      intro p hp
      cases hp
    have hspec := (spec_commitPrepared hterms r).2 ⟨hprepared.spares _, .inr rfl, hnone⟩
    obtain ⟨hspares, hinstalled⟩ := hspec.resolve_left hunspoiled
    exact ⟨hspares, fun state hstate => (hinstalled state hstate).2⟩
  | delete prepared =>
    exact ((spec_commitPreparedDelete prepared r).2 (hprepared.spares _)).resolve_left hunspoiled
  | move prepared =>
    obtain ⟨expected, hexpected⟩ := hprepared.source prepared rfl
    have hstaged : ∀ content, prepared.content = some content → ∃ inode node,
        Job.staged (.move prepared) r = some (inode, node) ∧
          fs.stateOf node = content.installedState := by
      intro content hcontent
      obtain ⟨inode, node, hlook, hstate⟩ := hprepared.staged content hcontent
      refine ⟨inode, node, ?_, hstate⟩
      rw [Job.staged, Job.content, hcontent]
      exact hlook
    have hspec := (spec_commitPreparedMove prepared hexpected _
      (r.world.look prepared.source.place) hstaged r).2 ⟨hprepared.spares _, rfl, ?_⟩
    · exact hspec.resolve_left hunspoiled
    · intro content hcontent
      refine ⟨?_, hprepared.name content hcontent⟩
      rw [Job.staged, Job.content, hcontent]
      rfl

/-! A write that is overtaken twice. The file it replaces is exchanged for another one before the
commit, and while the commit looks at the displaced file the destination is replaced once more. -/

def sampleStore : FileStore (List UInt8) where
  owner := 0
  hash := id
  maxDocumentBytes := 1024
  processId := 7

def sampleFile (content : List UInt8) : Node := .file content none false

def sampleWrite : PreparedWrite (List UInt8) where
  owner := 0
  parent := ⟨0, 1⟩
  destinationPath := [47, 100]
  destinationName := [100]
  temporaryName := sampleStore.temporaryName 0
  expected := .present (sampleStore.forContent (sampleFile [111]).metadata [111])
  installedState := sampleStore.stateOf (sampleFile [110])

/-- The old file at the destination is inode 1, the staged one is inode 2. -/
def sampleRun (turns : List Turn) : Run where
  world := {
    entries := fun p =>
      if p = sampleWrite.destination then some 1
      else if p = sampleWrite.temporary then some 2 else none
    nodes := fun i => if i = 2 then sampleFile [110] else sampleFile [111] }
  turns
  sequence := 1

/-- Another process replaces the destination by a new file. -/
def replaced (inode : Nat) (content : List UInt8) : Turn where
  moves := [.rewrite inode (sampleFile content), .link sampleWrite.destination (some inode)]

def quiet : Turn where
  moves := []

theorem prepared_sampleRun (turns : List Turn) :
    Job.Prepared sampleStore (.write sampleWrite) (sampleRun turns) where
  trace := rfl
  undisturbed := rfl
  staged := by
    intro content hcontent
    cases hcontent
    exact ⟨2, sampleFile [110], rfl, rfl⟩
  name := by
    intro content hcontent
    cases hcontent
    exact ⟨0, Nat.one_pos, rfl⟩
  source := fun _ h => by cases h

def overtaken : Run := sampleRun [quiet, replaced 3 [97]]

def overtakenTwice : Run :=
  sampleRun ([quiet, replaced 3 [97]] ++ List.replicate 10 quiet ++ [replaced 4 [98]])

/-- A write overtaken once rolls back and is safe. -/
theorem commit_safe_overtaken : Job.Safe sampleStore (.write sampleWrite) overtaken :=
  commit_safe _ _ (prepared_sampleRun _) (by decide +kernel)

/-- A write overtaken twice unlinks the second file, whose bytes nobody looked at. -/
theorem not_safe_overtakenTwice :
    Job.Prepared sampleStore (.write sampleWrite) overtakenTwice ∧
      ¬ Job.Safe sampleStore (.write sampleWrite) overtakenTwice := by
  refine ⟨prepared_sampleRun _, fun hsafe => ?_⟩
  have hlost : ((Job.commit sampleStore (.write sampleWrite) overtakenTwice).2.trace.any fun event =>
      event.before.look sampleWrite.temporary == some (4, sampleFile [98]) &&
        event.after.look sampleWrite.temporary == none &&
          event.after.look sampleWrite.destination == some (3, sampleFile [97])) = true := by
    decide +kernel
  have hunexpected : ((Job.commit sampleStore (.write sampleWrite) overtakenTwice).2.trace.all
      fun event => (event.before.look sampleWrite.destination).all fun found =>
        found.1 ≠ 4 || !expectationMatches sampleWrite.expected (sampleStore.stateOf found.2)) = true := by
    decide +kernel
  obtain ⟨event, hmem, hevent⟩ := List.any_eq_true.1 hlost
  simp only [Bool.and_eq_true, beq_iff_eq] at hevent
  obtain ⟨⟨hbefore, htemporary⟩, hdestination⟩ := hevent
  rcases hsafe.1 event hmem _ _ hbefore with hkept | ⟨q, rfl | rfl, hmoved⟩ | hstaged | htaken
  · rw [htemporary] at hkept
    cases hkept
  · rw [htemporary] at hmoved
    cases hmoved
  · rw [hdestination] at hmoved
    cases hmoved
  · exact absurd hstaged (by decide +kernel)
  · obtain ⟨earlier, hearlier, p, -, node, hlook, rfl, hmatches⟩ := htaken
    have hall := List.all_eq_true.1 hunexpected earlier hearlier
    have hmatches' : expectationMatches sampleWrite.expected (sampleStore.stateOf node) = true :=
      hmatches
    rw [hlook, Option.all_some, hmatches'] at hall
    cases hall

end Job

end OhMyPi.Docserver
