import OhMyPi.Docserver.StableRead

/-! What a prepared commit can do to the bytes of others. As long as nobody else puts anything at a
place the commit relies on, a file it unlinks had the expected fingerprint when the commit took it
from its path, and a state it returns is the one it installed. -/

namespace OhMyPi.Docserver

open Action FileStore

variable {Hash : Type} [DecidableEq Hash]

/-- What a commit may unlink: the file it staged itself, if any, and files that had an expected
fingerprint at the place the commit took them from. -/
structure Terms (Hash : Type) where
  fs : FileStore Hash
  own : Place → Prop
  staged : Option (Nat × Node)
  expects : Place → DiskState Hash → Prop

namespace Terms

variable (t : Terms Hash)

/-- The commit took the file from a path while it had the state expected there. -/
def Taken (trace : List Event) (found : Nat × Node) : Prop :=
  ∃ event ∈ trace, ∃ p ∈ event.deed.takes, ∃ node,
    event.before.look p = some (found.1, node) ∧ t.expects p (t.fs.stateOf node)

def Fine (trace : List Event) (found : Nat × Node) : Prop :=
  t.staged = some found ∨ t.Taken trace found

/-- No step of the commit destroys unobserved bytes: what was at a place before it is still there, or
at a place of the commit's own, or was its own to unlink. -/
def Spares (trace : List Event) : Prop :=
  ∀ event ∈ trace, ∀ p found, event.before.look p = some found →
    event.after.look p = some found ∨ (∃ q, t.own q ∧ event.after.look q = some found) ∨
      t.Fine trace found

/-- The commit put a file with the returned state at the place. -/
def Installed (trace : List Event) (p : Place) (state : DiskState Hash) : Prop :=
  ∃ event ∈ trace, p ∈ event.deed.puts ∧ ∃ inode node,
    event.after.look p = some (inode, node) ∧ t.fs.stateOf node = state

/-- Whatever is at the place may be unlinked. -/
def Free (p : Place) (r : Run) : Prop := ∀ found, r.world.look p = some found → t.Fine r.trace found

variable {t}

theorem Taken.append (h : t.Taken trace found) : t.Taken (trace ++ more) found := by
  obtain ⟨event, hmem, hrest⟩ := h
  exact ⟨event, List.mem_append_left _ hmem, hrest⟩

theorem Fine.append (h : t.Fine trace found) : t.Fine (trace ++ more) found :=
  h.imp_right Taken.append

theorem Installed.append (h : t.Installed trace p state) : t.Installed (trace ++ more) p state := by
  obtain ⟨event, hmem, hrest⟩ := h
  exact ⟨event, List.mem_append_left _ hmem, hrest⟩

/-- One more step, and what has to be seen of it. -/
theorem Spares.step (h : t.Spares trace)
    (hstep : ∀ p found, event.before.look p = some found → event.after.look p = some found ∨
      (∃ q, t.own q ∧ event.after.look q = some found) ∨ t.Fine trace found) :
    t.Spares (trace ++ [event]) := by
  intro event' hmem p found hfound
  rcases List.mem_append.1 hmem with hold | hnew
  · exact (h event' hold p found hfound).imp_right (Or.imp_right Fine.append)
  · cases List.mem_singleton.1 hnew
    exact (hstep p found hfound).imp_right (Or.imp_right Fine.append)

theorem Spares.idle (h : t.Spares trace) : t.Spares (trace ++ [⟨.looked, w, w⟩]) :=
  h.step fun _ _ hfound => .inl hfound

theorem stable_spares (t : Terms Hash) : Stable fun r => t.Spares r.trace :=
  fun _ _ _ h _ => h.idle

end Terms

/-! ### The renaming calls -/

/-- The run after the commit has renamed one entry. -/
structure Renamed (a b : Place) (w w' : World) (found : Nat × Node) : Prop where
  source : w.look a = some found
  free : w.look b = none
  gone : w'.look a = none
  placed : w'.look b = some found
  rest : ∀ q, q ≠ a → q ≠ b → w'.look q = w.look q

structure Exchanged (a b : Place) (w w' : World) (x y : Nat × Node) : Prop where
  source : w.look a = some x
  destination : w.look b = some y
  taken : w'.look a = some y
  placed : w'.look b = some x
  rest : ∀ q, q ≠ a → q ≠ b → w'.look q = w.look q

theorem look_of_entries {w : World} (h : w.entries p = some i) : w.look p = some (i, w.nodes i) := by
  rw [World.look, h]
  rfl

theorem look_of_none {w : World} (h : w.entries p = none) : w.look p = none := by
  rw [World.look, h]
  rfl

theorem spec_renameNoreplace {P : Run → Prop} {Q : Except Failure (Except IoKind Unit) → Run → Prop}
    (hfail : ∀ r w turns kind, P r → Settles r.watched r.world w →
      Q (.ok (.error kind)) (r.idle w turns))
    (hok : ∀ r w turns w' found, P r → Settles r.watched r.world w → Renamed a b w w' found →
      Q (.ok (.ok ())) (r.act w turns (.renamed a b) w')) :
    Spec Spoiled P (renameNoreplace a b) Q := by
  rw [renameNoreplace]
  apply spec_atomic
  · intro r w turns fault hP hs
    exact hfail r w turns fault.kind hP hs
  · intro r w turns hP hs
    cases hsource : w.entries a with
    | none => exact hfail r w turns .notFound hP hs
    | some inode =>
      cases hdestination : w.entries b with
      | some other => exact hfail r w turns .alreadyExists hP hs
      | none =>
        have hne : b ≠ a := by
          intro heq
          rw [heq, hsource] at hdestination
          cases hdestination
        refine hok r w turns _ (inode, w.nodes inode) hP hs
          ⟨look_of_entries hsource, look_of_none hdestination, ?_, ?_, ?_⟩
        · exact look_of_none (if_pos rfl)
        · exact look_of_entries ((if_neg hne).trans (if_pos rfl))
        · intro q hqa hqb
          exact congrArg (Option.map _) ((if_neg hqa).trans (if_neg hqb))

theorem spec_renameExchange {P : Run → Prop} {Q : Except Failure (Except IoKind Unit) → Run → Prop}
    (hfail : ∀ r w turns kind, P r → Settles r.watched r.world w →
      Q (.ok (.error kind)) (r.idle w turns))
    (hok : ∀ r w turns w' x y, P r → Settles r.watched r.world w → Exchanged a b w w' x y →
      Q (.ok (.ok ())) (r.act w turns (.exchanged a b) w')) :
    Spec Spoiled P (renameExchange a b) Q := by
  rw [renameExchange]
  apply spec_atomic
  · intro r w turns fault hP hs
    exact hfail r w turns fault.kind hP hs
  · intro r w turns hP hs
    cases hsource : w.entries a with
    | none => exact hfail r w turns .notFound hP hs
    | some moved =>
      cases hdestination : w.entries b with
      | none => exact hfail r w turns .notFound hP hs
      | some displaced =>
        refine hok r w turns _ (moved, w.nodes moved) (displaced, w.nodes displaced) hP hs
          ⟨look_of_entries hsource, look_of_entries hdestination, ?_, ?_, ?_⟩
        · exact look_of_entries (if_pos rfl)
        · -- also when both names are one place
          have hplaced : (if b = a then some displaced else if b = b then some moved else w.entries b) =
              some moved := by
            split
            next heq => rw [← hdestination, heq, hsource]
            next => exact if_pos rfl
          exact look_of_entries hplaced
        · intro q hqa hqb
          exact congrArg (Option.map _) ((if_neg hqa).trans (if_neg hqb))

/-- A fact that a step keeps when it removes an entry or does nothing. -/
def Lasting (G : Run → Prop) : Prop :=
  ∀ r w turns deed w', G r → Settles r.watched r.world w →
    (∀ q, w'.look q = none ∨ w'.look q = w.look q) → G (r.act w turns deed w')

theorem Lasting.stable (h : Lasting G) : Stable G := fun r w turns hG hs =>
  h r w turns .looked w hG hs fun _ => .inr rfl

theorem Lasting.and (hF : Lasting F) (hG : Lasting G) : Lasting fun r => F r ∧ G r :=
  fun r w turns deed w' h hs hw => ⟨hF r w turns deed w' h.1 hs hw, hG r w turns deed w' h.2 hs hw⟩

theorem lasting_const (p : Prop) : Lasting fun _ => p := fun _ _ _ _ _ h _ _ => h

namespace Terms

variable {t : Terms Hash}

theorem lasting_installed (t : Terms Hash) (p : Place) (state : DiskState Hash) :
    Lasting fun r => t.Installed r.trace p state :=
  fun _ _ _ _ _ h _ _ => h.append

theorem lasting_free (t : Terms Hash) (held : Place → Prop) :
    Lasting fun r => ∀ p, held p → p ∈ r.watched ∧ t.Free p r := by
  intro r w turns deed w' h hs hw p hp
  refine ⟨(h p hp).1, fun found hfound => ?_⟩
  change w'.look p = some found at hfound
  have hlook : r.world.look p = some found := by
    rcases hw p with hnone | hsame
    · exact absurd (hnone.symm.trans hfound) (by simp)
    · rcases hs p (h p hp).1 with hnone | hsame'
      · rw [hsame, hnone] at hfound
        cases hfound
      · rw [← hsame', ← hsame, hfound]
  exact ((h p hp).2 found hlook).append

theorem spec_removeFile (t : Terms Hash) (hG : Lasting G) :
    Spec Spoiled (fun r => t.Spares r.trace ∧ (p ∈ r.watched ∧ t.Free p r) ∧ G r) (removeFile p)
      fun _ r => t.Spares r.trace ∧ G r := by
  rw [removeFile]
  apply spec_atomic
  · intro r w turns fault h hs
    exact ⟨h.1.idle, hG.stable r w turns h.2.2 hs⟩
  · intro r w turns h hs
    have hidle : t.Spares (r.idle w turns).trace ∧ G (r.idle w turns) :=
      ⟨h.1.idle, hG.stable r w turns h.2.2 hs⟩
    have hremoved : ∀ found, w.look p = some found →
        let w' : World := { w with entries := fun q => if q = p then none else w.entries q }
        t.Spares (r.act w turns (.removed p) w').trace ∧ G (r.act w turns (.removed p) w') := by
      intro found hfound w'
      have hrest : ∀ q, q ≠ p → w'.look q = w.look q := fun q hq =>
        congrArg (Option.map _) (if_neg hq)
      have hgone : w'.look p = none := look_of_none (if_pos rfl)
      constructor
      · apply h.1.step
        intro q found' hfound'
        cases (inferInstance : Decidable (q = p)) with
        | isTrue heq =>
          subst heq
          right; right
          rcases hs q h.2.1.1 with hnone | hsame
          · rw [show w.look q = none from hnone] at hfound'
            cases hfound'
          · exact h.2.1.2 found' (hsame.symm.trans hfound')
        | isFalse hne => exact .inl ((hrest q hne).trans hfound')
      · apply hG r w turns _ w' h.2.2 hs
        intro q
        cases (inferInstance : Decidable (q = p)) with
        | isTrue heq => exact .inl (heq ▸ hgone)
        | isFalse hne => exact .inr (hrest q hne)
    cases hlook : w.look p with
    | none => exact hidle
    | some found =>
      obtain ⟨inode, node⟩ := found
      cases node with
      | directory => exact hidle
      | file content modified readonly => exact hremoved _ hlook
      | symlink target => exact hremoved _ hlook
      | other => exact hremoved _ hlook

theorem Spares.renamed (h : t.Spares trace) (hw : Renamed a b w w' found) (hown : t.own b) :
    t.Spares (trace ++ [⟨.renamed a b, w, w'⟩]) := by
  apply h.step
  intro q found' hfound'
  cases (inferInstance : Decidable (q = a)) with
  | isTrue heq =>
    subst heq
    cases hw.source.symm.trans hfound'
    exact .inr (.inl ⟨b, hown, hw.placed⟩)
  | isFalse hqa =>
    cases (inferInstance : Decidable (q = b)) with
    | isTrue heq =>
      subst heq
      cases hw.free.symm.trans hfound'
    | isFalse hqb => exact .inl ((hw.rest q hqa hqb).trans hfound')

theorem Spares.exchanged (h : t.Spares trace) (hw : Exchanged a b w w' x y) (ha : t.own a)
    (hb : t.own b) : t.Spares (trace ++ [⟨.exchanged a b, w, w'⟩]) := by
  apply h.step
  intro q found hfound
  cases (inferInstance : Decidable (q = a)) with
  | isTrue heq =>
    subst heq
    cases hw.source.symm.trans hfound
    exact .inr (.inl ⟨b, hb, hw.placed⟩)
  | isFalse hqa =>
    cases (inferInstance : Decidable (q = b)) with
    | isTrue heq =>
      subst heq
      cases hw.destination.symm.trans hfound
      exact .inr (.inl ⟨a, ha, hw.taken⟩)
    | isFalse hqb => exact .inl ((hw.rest q hqa hqb).trans hfound)

end Terms

/-! ### Writes -/

section
variable {fs : FileStore Hash}

/-- What the caller of a write commit sees to: which places are the commit's own, what was staged at
the temporary, and that a state that meets the expectation may be unlinked. -/
structure WriteTerms (t : Terms Hash) (fs : FileStore Hash) (prepared : PreparedWrite Hash) :
    Prop where
  store : t.fs = fs
  own_temporary : t.own prepared.temporary
  own_destination : t.own prepared.destination
  staged : ∃ inode node, t.staged = some (inode, node) ∧ fs.stateOf node = prepared.installedState
  expects : ∀ state, expectationMatches prepared.expected state = true →
    t.expects prepared.destination state

/-- The places a caller relies on besides the temporary. -/
def Besides (held : List Place) (temporary p : Place) : Prop := p ∈ held ∧ p ≠ temporary

/-- Before the write is in place: the temporary has what was staged. -/
structure Ready (t : Terms Hash) (temporary : Place) (held : List Place) (r : Run) : Prop where
  spares : t.Spares r.trace
  watched : r.watched = temporary :: held
  staged : r.world.look temporary = none ∨ r.world.look temporary = t.staged
  free : ∀ p, Besides held temporary p → p ∈ r.watched ∧ t.Free p r

/-- After the exchange: the temporary has the displaced file and the destination what was staged. -/
structure Swapped (t : Terms Hash) (prepared : PreparedWrite Hash) (held : List Place)
    (displaced : Nat × Node) (r : Run) : Prop where
  spares : t.Spares r.trace
  watched : r.watched = prepared.temporary :: prepared.destination :: held
  temporary : r.world.look prepared.temporary = none ∨
    r.world.look prepared.temporary = some displaced
  destination : r.world.look prepared.destination = none ∨
    r.world.look prepared.destination = t.staged
  free : ∀ p, Besides held prepared.temporary p → p ∈ r.watched ∧ t.Free p r
  taken : ∃ event ∈ r.trace, prepared.destination ∈ event.deed.takes ∧
    event.before.look prepared.destination = some displaced
  held_destination : Besides held prepared.temporary prepared.destination →
    t.Fine r.trace displaced
  installed : t.Installed r.trace prepared.destination prepared.installedState

theorem stable_look (p : Place) (o : Option (Nat × Node)) :
    Stable fun r => p ∈ r.watched ∧ (r.world.look p = none ∨ r.world.look p = o) := by
  intro r w turns h hs
  refine ⟨h.1, ?_⟩
  rcases hs p h.1 with hnone | hsame
  · exact .inl hnone
  · change w.look p = none ∨ w.look p = o
    rw [hsame]
    exact h.2

theorem stable_ready (t : Terms Hash) (temporary : Place) (held : List Place) :
    Stable (Ready t temporary held) := by
  intro r w turns h hs
  refine ⟨h.spares.idle, h.watched, ?_, (t.lasting_free (Besides held temporary)).stable r w turns h.free hs⟩
  have hmem : temporary ∈ r.watched := by
    rw [h.watched]
    exact List.mem_cons_self
  exact (stable_look temporary t.staged r w turns ⟨hmem, h.staged⟩ hs).2

theorem stable_swapped (t : Terms Hash) (prepared : PreparedWrite Hash) (held : List Place)
    (displaced : Nat × Node) : Stable (Swapped t prepared held displaced) := by
  intro r w turns h hs
  have htemporary : prepared.temporary ∈ r.watched := by
    rw [h.watched]
    exact List.mem_cons_self
  have hdestination : prepared.destination ∈ r.watched := by
    rw [h.watched]
    exact List.mem_cons_of_mem _ List.mem_cons_self
  obtain ⟨event, hmem, htaken⟩ := h.taken
  exact {
    spares := h.spares.idle
    watched := h.watched
    temporary := (stable_look _ _ r w turns ⟨htemporary, h.temporary⟩ hs).2
    destination := (stable_look _ _ r w turns ⟨hdestination, h.destination⟩ hs).2
    free := (t.lasting_free (Besides held prepared.temporary)).stable r w turns h.free hs
    taken := ⟨event, List.mem_append_left _ hmem, htaken⟩
    held_destination := fun hheld => (h.held_destination hheld).append
    installed := h.installed.append }

/-- How the part of a write commit before the drop ends. -/
def WriteDone (t : Terms Hash) (prepared : PreparedWrite Hash) (held : List Place) :
    Except Failure (DiskState Hash × Bool) → Run → Prop
  | .ok (state, committed), r => committed = true ∧ t.Spares r.trace ∧
    (∀ p, Besides held prepared.temporary p → p ∈ r.watched ∧ t.Free p r) ∧ state = prepared.installedState ∧
      t.Installed r.trace prepared.destination state
  | .error _, r => t.Spares r.trace ∧ prepared.temporary ∈ r.watched ∧ t.Free prepared.temporary r

theorem Ready.done {t : Terms Hash} {prepared : PreparedWrite Hash}
    (h : Ready t prepared.temporary held r) :
    t.Spares r.trace ∧ prepared.temporary ∈ r.watched ∧ t.Free prepared.temporary r := by
  refine ⟨h.spares, ?_, fun found hfound => ?_⟩
  · rw [h.watched]
    exact List.mem_cons_self
  · rcases h.staged with hnone | hstaged
    · rw [hnone] at hfound
      cases hfound
    · exact .inl (hstaged.symm.trans hfound)

theorem Terms.Free.act {t : Terms Hash} (h : p ∈ r.watched ∧ t.Free p r)
    (hs : Settles r.watched r.world w)
    (hw : ∀ found, w'.look p = some found → t.staged = some found ∨ w.look p = some found) :
    t.Free p (r.act w turns deed w') := by
  intro found hfound
  rcases hw found hfound with hstaged | hold
  · exact .inl hstaged
  · rcases hs p h.1 with hnone | hsame
    · rw [hnone] at hold
      cases hold
    · exact (h.2 found (hsame.symm.trans hold)).append

/-- What the temporary has when the commit gets to it. -/
theorem Ready.staged_eq {t : Terms Hash} (h : Ready t p held r)
    (hs : Settles r.watched r.world w) (hlook : w.look p = some x) : t.staged = some x := by
  have hmem : p ∈ r.watched := by
    rw [h.watched]
    exact List.mem_cons_self
  rcases (stable_look p t.staged r w r.turns ⟨hmem, h.staged⟩ hs).2 with hnone | hsame
  · exact absurd (hnone.symm.trans hlook) (by simp)
  · exact hsame.symm.trans hlook

theorem WriteTerms.installed {t : Terms Hash} (ht : WriteTerms t fs prepared)
    (hfound : t.staged = some found) (hputs : prepared.destination ∈ deed.puts)
    (hplaced : World.look w' prepared.destination = some found) :
    t.Installed (trace ++ [⟨deed, w, w'⟩]) prepared.destination prepared.installedState := by
  obtain ⟨inode, node, hstaged, hstate⟩ := ht.staged
  cases hstaged.symm.trans hfound
  exact ⟨_, List.mem_append_right _ (List.mem_singleton_self _), hputs, inode, node, hplaced,
    ht.store ▸ hstate⟩

theorem spec_install {t : Terms Hash} (ht : WriteTerms t fs prepared) :
    Spec Spoiled (Ready t prepared.temporary held)
      (renameNoreplace prepared.temporary prepared.destination) fun result r =>
        (∀ kind, result = .ok (.error kind) → Ready t prepared.temporary held r) ∧
        (result = .ok (.ok ()) → WriteDone t prepared held (.ok (prepared.installedState, true)) r) := by
  apply spec_renameNoreplace
  · intro r w turns kind h hs
    exact ⟨fun _ _ => stable_ready t _ _ r w turns h hs, fun hok => by cases hok⟩
  · intro r w turns w' found h hs hw
    have hstaged := h.staged_eq hs hw.source
    refine ⟨fun _ hkind => (by cases hkind), fun _ => ⟨rfl, h.spares.renamed hw ht.own_destination,
      fun p hp => ⟨(h.free p hp).1, ?_⟩, rfl, ht.installed hstaged (List.mem_singleton_self _) hw.placed⟩⟩
    apply Terms.Free.act (h.free p hp) hs
    intro found' hfound'
    cases (inferInstance : Decidable (p = prepared.destination)) with
    | isTrue heq =>
      subst heq
      rw [hw.placed] at hfound'
      exact .inl (hstaged.trans hfound')
    | isFalse hne => exact .inr ((hw.rest p hp.2 hne).symm.trans hfound')

theorem spec_swap {t : Terms Hash} (ht : WriteTerms t fs prepared) :
    Spec Spoiled (Ready t prepared.temporary held)
      (renameExchange prepared.temporary prepared.destination) fun result r =>
        (∀ kind, result = .ok (.error kind) → Ready t prepared.temporary held r) ∧
        (result = .ok (.ok ()) → ∃ displaced, Swapped t prepared held displaced
          { r with watched := prepared.temporary :: prepared.destination :: held }) := by
  apply spec_renameExchange
  · intro r w turns kind h hs
    exact ⟨fun _ _ => stable_ready t _ _ r w turns h hs, fun hok => by cases hok⟩
  · intro r w turns w' x y h hs hw
    have hstaged := h.staged_eq hs hw.source
    have hfree : ∀ p, Besides held prepared.temporary p → t.Free p (r.act w turns
        (.exchanged prepared.temporary prepared.destination) w') := by
      intro p hp
      apply Terms.Free.act (h.free p hp) hs
      intro found' hfound'
      cases (inferInstance : Decidable (p = prepared.destination)) with
      | isTrue heq =>
        subst heq
        rw [hw.placed] at hfound'
        exact .inl (hstaged.trans hfound')
      | isFalse hne => exact .inr ((hw.rest p hp.2 hne).symm.trans hfound')
    refine ⟨fun _ hkind => (by cases hkind), fun _ => ⟨y, ?_⟩⟩
    exact {
      spares := h.spares.exchanged hw ht.own_temporary ht.own_destination
      watched := rfl
      temporary := .inr hw.taken
      destination := .inr (hw.placed.trans hstaged.symm)
      free := fun p hp => ⟨List.mem_cons_of_mem _ (List.mem_cons_of_mem _ hp.1), hfree p hp⟩
      taken := ⟨_, List.mem_append_right _ (List.mem_singleton_self _),
        List.mem_cons_of_mem _ (List.mem_singleton_self _), hw.destination⟩
      held_destination := by
        intro hheld
        rcases hs _ (h.free _ hheld).1 with hnone | hsame
        · exact absurd (hnone.symm.trans hw.destination) (by simp)
        · exact ((h.free _ hheld).2 y (hsame.symm.trans hw.destination)).append
      installed := ht.installed hstaged (List.mem_cons_of_mem _ (List.mem_singleton_self _)) hw.placed }

/-- The rollback puts the displaced file back and brings the staged one home. -/
theorem spec_swapBack {t : Terms Hash} (ht : WriteTerms t fs prepared) (displaced : Nat × Node) :
    Spec Spoiled (Swapped t prepared held displaced)
      (renameExchange prepared.temporary prepared.destination) fun result r =>
        (∀ kind, result = .ok (.error kind) → Swapped t prepared held displaced r) ∧
        (result = .ok (.ok ()) → t.Spares r.trace ∧ t.Free prepared.temporary r) := by
  apply spec_renameExchange
  · intro r w turns kind h hs
    exact ⟨fun _ _ => stable_swapped t _ _ _ r w turns h hs, fun hok => by cases hok⟩
  · intro r w turns w' x y h hs hw
    refine ⟨fun _ hkind => (by cases hkind), fun _ =>
      ⟨h.spares.exchanged hw ht.own_temporary ht.own_destination, fun found hfound => ?_⟩⟩
    -- the destination has been watched since the exchange
    have hmem : prepared.destination ∈ r.watched := by
      rw [h.watched]
      exact List.mem_cons_of_mem _ List.mem_cons_self
    cases hw.taken.symm.trans hfound
    rcases (stable_look _ _ r w turns ⟨hmem, h.destination⟩ hs).2 with hnone | hsame
    · exact absurd (hnone.symm.trans hw.destination) (by simp)
    · exact .inl (hsame.symm.trans hw.destination)

/-- A displaced file that was read with the expected state may go. -/
theorem Swapped.fine {t : Terms Hash} (ht : WriteTerms t fs prepared)
    (h : Swapped t prepared held (inode, node) r)
    (hmatches : expectationMatches prepared.expected (fs.stateOf node) = true) :
    t.Fine r.trace (inode, node) := by
  obtain ⟨event, hmem, htakes, hlook⟩ := h.taken
  exact .inr ⟨event, hmem, _, htakes, node, hlook, ht.expects _ (ht.store ▸ hmatches)⟩

theorem Swapped.done {t : Terms Hash} (h : Swapped t prepared held displaced r) :
    WriteDone t prepared held (.ok (prepared.installedState, true)) r :=
  ⟨rfl, h.spares, h.free, rfl, h.installed⟩

/-- A state that was read and agrees is the expected one. -/
theorem readAgrees_eq_true {read : Except Failure (DiskState Hash)}
    (h : readAgrees expected read = true) :
    ∃ content fingerprint, read = .ok (.present content fingerprint) ∧
      expectationMatches (.present expected) (.present content fingerprint) = true := by
  cases read with
  | error e => cases h
  | ok state =>
    cases state with
    | missing => cases h
    | present content fingerprint => exact ⟨content, fingerprint, rfl, h⟩

/-- The read of a displaced file agrees only with what the file holds. -/
theorem spec_readDisplaced {F : Run → Prop} (hF : Stable F)
    (hp : ∀ r, F r → p ∈ r.watched ∧ (r.world.look p = none ∨ r.world.look p = some found)) :
    Spec Spoiled F (capture (fs.stableReadAt p path)) fun result r =>
      F r ∧ ∀ read expected, result = .ok read → readAgrees expected read = true →
        expectationMatches (.present expected) (fs.stateOf found.2) = true := by
  apply spec_capture
  refine ((keeps_stableReadAt hF).and ((present_stableReadAt p (some found)).mono ?_
    fun _ _ h => h)).mono (fun _ h => h) fun result r h => ⟨h.1, fun read expected hread hagrees => ?_⟩
  · intro r h
    exact ⟨(hp r h).1, (hp r h).2.imp_right fun hlook => ⟨hlook, trivial⟩⟩
  · cases hread
    obtain ⟨content, fingerprint, rfl, hmatches⟩ := readAgrees_eq_true hagrees
    obtain ⟨inode, node, heq, hstate⟩ := h.2 content fingerprint rfl
    cases heq
    rw [hstate]
    exact hmatches

/-- A watched place whose only file may go is free. -/
theorem Terms.free_of_look {t : Terms Hash}
    (hlook : r.world.look p = none ∨ r.world.look p = some found) (hfine : t.Fine r.trace found) :
    t.Free p r := by
  intro found' hfound'
  rcases hlook with hnone | hsame
  · rw [hnone] at hfound'
    cases hfound'
  · cases hsame.symm.trans hfound'
    exact hfine

theorem Swapped.watches {t : Terms Hash} (h : Swapped t prepared held displaced r) :
    prepared.temporary ∈ r.watched ∧ (r.world.look prepared.temporary = none ∨
      r.world.look prepared.temporary = some displaced) := by
  refine ⟨?_, h.temporary⟩
  rw [h.watched]
  exact List.mem_cons_self

theorem spec_settleWrite {t : Terms Hash} (ht : WriteTerms t fs prepared)
    (hexpected : prepared.expected = .present expected) (displaced : Nat × Node) :
    Spec Spoiled (Swapped t prepared held displaced) (fs.settleWrite prepared expected held)
      (WriteDone t prepared held) := by
  apply Spec.bind_total (fun _ => ⟨_, rfl⟩)
    (spec_readDisplaced (stable_swapped t prepared held displaced) fun _ h => h.watches)
  intro read
  cases hagrees : readAgrees expected read with
  | false =>
    apply Spec.bind_total (atomic_total _) ((spec_swapBack ht displaced).mono (fun _ h => h.1)
      fun _ _ h => h)
    intro result
    cases result with
    | ok _ =>
      apply Spec.bind_total (fun _ => ⟨_, rfl⟩) (spec_watch (Q := fun _ r => t.Spares r.trace ∧
        prepared.temporary ∈ r.watched ∧ t.Free prepared.temporary r) fun r h =>
          ⟨(h.2 rfl).1, List.mem_cons_self, (h.2 rfl).2⟩)
      intro _
      exact Spec.fail fun r h => h
    | error kind => exact Spec.pure fun r h => (h.1 kind rfl).done
  | true =>
    have hlasting := (t.lasting_free (Besides held prepared.temporary)).and
      (t.lasting_installed prepared.destination prepared.installedState)
    apply Spec.bind_total (atomic_total _) ((t.spec_removeFile hlasting).mono ?_ fun _ _ h => h)
    · intro _
      exact Spec.pure fun r h => ⟨rfl, h.1, h.2.1, rfl, h.2.2⟩
    · intro r h
      have hmatches := h.2 read expected rfl hagrees
      have hfine := Swapped.fine ht h.1 (hexpected ▸ hmatches)
      exact ⟨h.1.spares, ⟨h.1.watches.1, Terms.free_of_look h.1.temporary hfine⟩, h.1.free,
        h.1.installed⟩

theorem spec_commitWrite {t : Terms Hash} (ht : WriteTerms t fs prepared) :
    Spec Spoiled (Ready t prepared.temporary held) (fs.commitWrite prepared held)
      (WriteDone t prepared held) := by
  rw [commitWrite]
  split
  · exact Spec.fail fun r h => h.done
  · apply Spec.bind (spec_parentIsCurrent (stable_ready t _ held))
    · intro current
      split
      · exact Spec.fail fun r h => h.done
      · split
        next => 
          apply Spec.bind_total (atomic_total _) (spec_install ht)
          intro result
          split
          · exact Spec.fail fun r h => (h.1 _ rfl).done
          · exact Spec.fail fun r h => (h.1 _ rfl).done
          · exact Spec.pure fun r h => h.2 rfl
        next expected hexpected =>
          apply Spec.bind_total (atomic_total _) (spec_swap ht)
          intro result
          split
          · exact Spec.fail fun r h => (h.1 _ rfl).done
          · exact Spec.fail fun r h => (h.1 _ rfl).done
          · apply Spec.bind_total (fun _ => ⟨_, rfl⟩)
              (spec_watch (Q := fun _ r => ∃ displaced, Swapped t prepared held displaced r)
                fun r h => h.2 rfl)
            intro _
            exact Spec.exists_left (0, Node.other) (spec_settleWrite ht hexpected)
    · exact fun e r h => h.done

theorem spec_dropPrepared {t : Terms Hash} (prepared : PreparedWrite Hash) :
    Spec Spoiled (fun r => t.Spares r.trace ∧ prepared.temporary ∈ r.watched ∧
      t.Free prepared.temporary r) (dropPrepared prepared false) fun _ r => t.Spares r.trace := by
  rw [dropPrepared]
  apply Spec.bind_total (atomic_total _) ((t.spec_removeFile (lasting_const True)).mono
    (fun _ h => ⟨h.1, h.2, trivial⟩) fun _ _ h => h)
  intro _
  exact Spec.pure fun _ h => h.1

theorem spec_commitPrepared {t : Terms Hash} (ht : WriteTerms t fs prepared) :
    Spec Spoiled (fun r => t.Spares r.trace ∧
        (r.world.look prepared.temporary = none ∨ r.world.look prepared.temporary = t.staged) ∧
        ∀ p ∈ held, t.Free p r) (fs.commitPrepared prepared held) fun result r =>
      t.Spares r.trace ∧ ∀ state, result = .ok state →
        (∀ p, Besides held prepared.temporary p → p ∈ r.watched ∧ t.Free p r) ∧
          t.Installed r.trace prepared.destination state := by
  apply Spec.bind_total (fun _ => ⟨_, rfl⟩)
    (spec_watch (Q := fun _ => Ready t prepared.temporary held) fun r h =>
      ⟨h.1, rfl, h.2.1, fun p hp => ⟨List.mem_cons_of_mem _ hp.1, h.2.2 p hp.1⟩⟩)
  intro _
  have hwrite : Spec Spoiled (Ready t prepared.temporary held) (capture (fs.commitWrite prepared held))
      fun result r => ∀ done, result = .ok done → WriteDone t prepared held done r := by
    apply spec_capture
    refine (spec_commitWrite ht).mono (fun _ h => h) fun result r h done hdone => ?_
    cases hdone
    exact h
  apply Spec.bind_total (fun _ => ⟨_, rfl⟩) hwrite
  intro result
  cases result with
  | ok done =>
    obtain ⟨state, committed⟩ := done
    cases committed with
    | false =>
      have hany : Spec Spoiled (fun r => t.Spares r.trace ∧ prepared.temporary ∈ r.watched ∧
          t.Free prepared.temporary r) (do
            dropPrepared prepared false
            watch held
            return state) fun _ _ => True := by
        apply Spec.bind (spec_dropPrepared prepared)
        · intro _
          apply Spec.bind (spec_watch (Q := fun _ _ => True) fun _ _ => trivial)
          · exact fun _ => Spec.pure fun _ _ => trivial
          · exact fun _ _ _ => trivial
        · exact fun _ _ _ => trivial
      refine Spec.of_false hany ?_
      intro r h
      exact Bool.false_ne_true (h _ rfl).1
    | true =>
      have hkept : Spec Spoiled (WriteDone t prepared held (.ok (state, true)))
          (dropPrepared prepared true) fun _ => WriteDone t prepared held (.ok (state, true)) :=
        Spec.pure fun _ h => h
      apply Spec.bind (hkept.mono (fun r h => h _ rfl) fun _ _ h => h) ?_
        fun e r h => ⟨h.2.1, fun _ hstate => (by cases hstate)⟩
      intro _
      apply Spec.bind_total (fun _ => ⟨_, rfl⟩) (spec_watch (Q := fun _ r => t.Spares r.trace ∧
        (∀ p, Besides held prepared.temporary p → p ∈ r.watched ∧ t.Free p r) ∧
          t.Installed r.trace prepared.destination state)
          fun r h => ?_)
      · intro _
        refine Spec.pure fun r h => ⟨h.1, fun state' hstate => ?_⟩
        cases hstate
        exact h.2
      · obtain ⟨-, hspares, hfree, -, hinstalled⟩ := h
        exact ⟨hspares, fun p hp => ⟨hp.1, (hfree p hp).2⟩, hinstalled⟩
  | error e =>
    apply Spec.bind ((spec_dropPrepared prepared).mono (fun r h => h _ rfl) fun _ _ h => h)
    · intro _
      apply Spec.bind_total (fun _ => ⟨_, rfl⟩) (spec_watch (Q := fun _ r => t.Spares r.trace)
        fun _ h => h)
      intro _
      exact Spec.fail fun r h => ⟨h, fun _ hstate => by cases hstate⟩
    · exact fun e r h => ⟨h, fun _ hstate => by cases hstate⟩

/-! ### Quarantine -/

/-- The quarantine loop keeps `F` until one rename succeeds, with a name not given out before. -/
theorem spec_quarantine {target : PreparedEntry Hash} {Q : Except Failure PathWalk.Name → Run → Prop}
    (hF : Stable F) (hsequence : ∀ r, F r → F { r with sequence := r.sequence + 1 })
    (hok : ∀ r w turns w' found, F r → Settles r.watched r.world w →
      Renamed target.place ⟨target.parent, fs.temporaryName r.sequence⟩ w w' found →
        Q (.ok (fs.temporaryName r.sequence)) (({ r with sequence := r.sequence + 1 } : Run).act w turns
          (.renamed target.place ⟨target.parent, fs.temporaryName r.sequence⟩) w'))
    (hfail : ∀ r e, F r → Q (.error e) r) (attempts : Nat) :
    Spec Spoiled F (fs.quarantine target notFound attempts) Q := by
  induction attempts with
  | zero => exact Spec.fail fun r h => hfail r _ h
  | succ attempts ih =>
    -- the name is known together with the run it was drawn from
    have hnext : Spec Spoiled F fs.nextTemporaryName fun result r' => ∃ r, F r ∧
        result = .ok (fs.temporaryName r.sequence) ∧ r' = { r with sequence := r.sequence + 1 } :=
      fun r => ⟨fun hr => hr, fun h => .inr ⟨r, h, rfl, rfl⟩⟩
    apply Spec.bind_total (fun _ => ⟨_, rfl⟩) hnext
    intro candidate
    have hrename : Spec Spoiled (fun r' => ∃ r, F r ∧
        (.ok candidate : Except Failure PathWalk.Name) = .ok (fs.temporaryName r.sequence) ∧
          r' = { r with sequence := r.sequence + 1 })
        (renameNoreplace target.place ⟨target.parent, candidate⟩) fun result r' =>
          (∀ kind, result = .ok (.error kind) → F r') ∧
            (result = .ok (.ok ()) → Q (.ok candidate) r') := by
      apply spec_renameNoreplace
      · intro r' w turns kind hr hs
        obtain ⟨r, h, -, rfl⟩ := hr
        exact ⟨fun _ _ => hF _ w turns (hsequence r h) hs, fun hresult => by cases hresult⟩
      · intro r' w turns w' found hr hs hw
        obtain ⟨r, h, hname, rfl⟩ := hr
        cases hname
        exact ⟨fun _ hresult => (by cases hresult), fun _ => hok r w turns w' found h hs hw⟩
    apply Spec.bind_total (atomic_total _) hrename
    intro result
    split
    · exact Spec.pure fun r h => h.2 rfl
    · exact ih.mono (fun r h => h.1 _ rfl) fun _ _ h => h
    · exact Spec.fail fun r h => hfail r _ (h.1 _ rfl)
    · exact Spec.fail fun r h => hfail r _ (h.1 _ rfl)

theorem keeps_stableExpectedState (hF : Stable F) (entry : PreparedEntry Hash) :
    Spec Spoiled F (fs.stableExpectedState entry) fun _ => F := by
  apply keeps_bind (spec_capture (Q := fun _ => F) (keeps_stableReadAt hF))
  intro result
  split
  · exact keeps_pure F _
  · exact keeps_fail F _
  · exact keeps_fail F _
  · exact keeps_fail F _

/-- The state that `stable_expected_state` returns is the one that was read. -/
theorem spec_stableExpectedState {entry : PreparedEntry Hash} {Q : DiskState Hash → Run → Prop}
    (h : Spec Spoiled P (fs.stableReadAt entry.place entry.path) fun result r =>
      ∀ state, result = .ok state → Q state r) :
    Spec Spoiled P (fs.stableExpectedState entry) fun result r =>
      ∀ state, result = .ok state → Q state r := by
  have hcapture : Spec Spoiled P (capture (fs.stableReadAt entry.place entry.path)) fun result r =>
      ∀ state, result = .ok (.ok state) → Q state r := by
    apply spec_capture
    exact h.mono (fun _ hP => hP) fun result r hr state hstate => hr state (Except.ok.inj hstate)
  apply Spec.bind_total (fun _ => ⟨_, rfl⟩) hcapture
  intro result
  split
  · refine Spec.pure fun r hr state hstate => ?_
    cases hstate
    exact hr _ rfl
  · exact Spec.fail fun r _ state hstate => by cases hstate
  · exact Spec.fail fun r _ state hstate => by cases hstate
  · exact Spec.fail fun r _ state hstate => by cases hstate

/-! ### Deletions -/

/-- What the terms of a deletion are. -/
def PreparedDelete.terms (fs : FileStore Hash) (prepared : PreparedDelete Hash) : Terms Hash where
  fs := fs
  own p := p = prepared.target.place ∨
    ∃ n, p = ⟨prepared.target.parent, fs.temporaryName n⟩
  staged := none
  expects p state := p = prepared.target.place ∧
    expectationMatches prepared.target.expected state = true

/-- The file stands in quarantine. -/
structure Quarantined (t : Terms Hash) (target quarantined : Place) (found : Nat × Node)
    (r : Run) : Prop where
  spares : t.Spares r.trace
  watched : quarantined ∈ r.watched
  held : r.world.look quarantined = none ∨ r.world.look quarantined = some found
  taken : ∃ event ∈ r.trace, target ∈ event.deed.takes ∧ event.before.look target = some found
  missing : WasMissing target r

theorem stable_quarantined (t : Terms Hash) (target quarantined : Place) (found : Nat × Node) :
    Stable (Quarantined t target quarantined found) := by
  intro r w turns h hs
  obtain ⟨event, hmem, htaken⟩ := h.taken
  obtain ⟨moment, hmoment, hmissing⟩ := h.missing
  exact {
    spares := h.spares.idle
    watched := h.watched
    held := (stable_look _ _ r w turns ⟨h.watched, h.held⟩ hs).2
    taken := ⟨event, List.mem_append_left _ hmem, htaken⟩
    missing := ⟨moment, List.mem_append_left _ hmoment, hmissing⟩ }

theorem lasting_wasMissing (p : Place) : Lasting (WasMissing p) :=
  fun _ _ _ _ _ ⟨event, hmem, hlook⟩ _ _ => ⟨event, List.mem_append_left _ hmem, hlook⟩

/-- How a deletion ends. -/
def DeleteDone (t : Terms Hash) (target : Place) (result : Except Failure (DiskState Hash)) (r : Run) :
    Prop :=
  t.Spares r.trace ∧ ∀ state, result = .ok state → state = .missing ∧ WasMissing target r

theorem Quarantined.done {t : Terms Hash} (h : Quarantined t target quarantined found r) :
    DeleteDone t target (.ok .missing) r :=
  ⟨h.spares, fun _ hstate => ⟨(Except.ok.inj hstate).symm, h.missing⟩⟩

theorem spec_settleDelete (prepared : PreparedDelete Hash)
    (hexpected : prepared.target.expected = .present expected) (quarantined : Place)
    (found : Nat × Node) :
    Spec Spoiled (Quarantined (prepared.terms fs) prepared.target.place quarantined found)
      (fs.settleDelete prepared.target expected quarantined)
      (DeleteDone (prepared.terms fs) prepared.target.place) := by
  apply Spec.bind_total (fun _ => ⟨_, rfl⟩)
    (spec_readDisplaced (stable_quarantined _ _ _ found) fun _ h => ⟨h.watched, h.held⟩)
  intro read
  cases hagrees : readAgrees expected read with
  | false =>
    have hback : Spec Spoiled
        (Quarantined (prepared.terms fs) prepared.target.place quarantined found)
        (renameNoreplace quarantined prepared.target.place) fun result r =>
          (∀ kind, result = .ok (.error kind) →
            Quarantined (prepared.terms fs) prepared.target.place quarantined found r) ∧
          (prepared.terms fs).Spares r.trace := by
      apply spec_renameNoreplace
      · intro r w turns kind h hs
        exact ⟨fun _ _ => stable_quarantined _ _ _ _ r w turns h hs, h.spares.idle⟩
      · intro r w turns w' moved h hs hw
        exact ⟨fun _ hresult => (by cases hresult), h.spares.renamed hw (.inl rfl)⟩
    apply Spec.bind_total (atomic_total _) (hback.mono (fun _ h => h.1) fun _ _ h => h)
    intro result
    cases result with
    | ok _ => exact Spec.fail fun r h => ⟨h.2, fun _ hstate => by cases hstate⟩
    | error kind => exact Spec.pure fun r h => (h.1 kind rfl).done
  | true =>
    apply Spec.bind_total (atomic_total _) (((prepared.terms fs).spec_removeFile
      (lasting_wasMissing prepared.target.place)).mono ?_ fun _ _ h => h)
    · intro _
      exact Spec.pure fun r h => ⟨h.1, fun _ hstate => ⟨(Except.ok.inj hstate).symm, h.2⟩⟩
    · intro r h
      have hmatches := h.2 read expected rfl hagrees
      obtain ⟨event, hmem, htakes, hlook⟩ := h.1.taken
      have hfine : (prepared.terms fs).Fine r.trace found :=
        .inr ⟨event, hmem, _, htakes, found.2, hlook, rfl, hexpected ▸ hmatches⟩
      exact ⟨h.1.spares, ⟨h.1.watched, Terms.free_of_look h.1.held hfine⟩, h.1.missing⟩

theorem spec_commitPreparedDelete (prepared : PreparedDelete Hash) :
    Spec Spoiled (fun r => (prepared.terms fs).Spares r.trace) (fs.commitPreparedDelete prepared)
      (DeleteDone (prepared.terms fs) prepared.target.place) := by
  rw [commitPreparedDelete]
  split
  · exact Spec.fail fun r h => ⟨h, fun _ hstate => by cases hstate⟩
  · apply Spec.bind (spec_parentIsCurrent (Terms.stable_spares _))
    · intro current
      split
      · exact Spec.fail fun r h => ⟨h, fun _ hstate => by cases hstate⟩
      · split
        next =>
          have hmissing : Spec Spoiled (fun r => (prepared.terms fs).Spares r.trace)
              (fs.stableExpectedState prepared.target) fun result r => ∀ state, result = .ok state →
                state = .missing → WasMissing prepared.target.place r := by
            apply spec_stableExpectedState
            refine (missing_stableReadAt _).mono (fun _ _ => trivial) ?_
            intro result r h state hstate heq
            subst heq
            exact h hstate
          apply Spec.bind ((keeps_stableExpectedState (Terms.stable_spares _) _).and hmissing)
          · intro state
            cases state with
            | missing =>
              exact Spec.pure fun r h =>
                ⟨h.1, fun _ hstate => ⟨(Except.ok.inj hstate).symm, h.2 _ rfl rfl⟩⟩
            | present content fingerprint =>
              exact Spec.fail fun r h => ⟨h.1, fun _ hstate => by cases hstate⟩
          · exact fun e r h => ⟨h.1, fun _ hstate => by cases hstate⟩
        next expected hexpected =>
          have hquarantine : Spec Spoiled (fun r => (prepared.terms fs).Spares r.trace)
              (fs.quarantine prepared.target prepared.target.staleEntry 128) fun result r =>
                (prepared.terms fs).Spares r.trace ∧ ∀ name, result = .ok name →
                  ∃ found, Quarantined (prepared.terms fs) prepared.target.place
                    ⟨prepared.target.parent, name⟩ found
                      { r with watched := [⟨prepared.target.parent, name⟩] } := by
            apply spec_quarantine (Terms.stable_spares _) (fun _ h => h)
            · intro r w turns w' found h hs hw
              have hspares := h.renamed hw (.inr ⟨r.sequence, rfl⟩)
              refine ⟨hspares, fun name hname => ⟨found, ?_⟩⟩
              cases hname
              exact {
                spares := hspares
                watched := List.mem_singleton_self _
                held := .inr hw.placed
                taken := ⟨_, List.mem_append_right _ (List.mem_singleton_self _),
                  List.mem_singleton_self _, hw.source⟩
                missing := ⟨_, List.mem_append_right _ (List.mem_singleton_self _), hw.gone⟩ }
            · exact fun r e h => ⟨h, fun _ hname => by cases hname⟩
          apply Spec.bind hquarantine
          · intro name
            apply Spec.bind_total (fun _ => ⟨_, rfl⟩) (spec_watch (Q := fun _ r =>
              ∃ found, Quarantined (prepared.terms fs) prepared.target.place
                ⟨prepared.target.parent, name⟩ found r) fun r h => h.2 name rfl)
            intro _
            exact Spec.exists_left (0, Node.other) (spec_settleDelete prepared hexpected _)
          · exact fun e r h => ⟨h.1, fun _ hstate => by cases hstate⟩
    · exact fun e r h => ⟨h, fun _ hstate => by cases hstate⟩

end

end OhMyPi.Docserver
