import OhMyPi.Dom.Replica

/-! Lifecycle work between two snapshots (`session/src/rewind.rs`). Elements are matched by an
identity of tag and text, collected in a map, so that of several elements with one identity a
snapshot keeps only the last. -/

namespace OhMyPi

open KeyedList

/-- `Snapshot::handles`: live handles in numeric order. -/
def Snapshot.handles (s : Snapshot) : List Handle :=
  ((List.range s.highWater).map (· + 1)).filter fun h => (s.nodes h).isSome

namespace Rewind

/-- Spawn and termination work implied by a transition. -/
structure LifecycleWork where
  terminate : List Handle
  spawn : List Handle
  retained : List (Handle × Handle)
deriving DecidableEq

structure LifecycleId where
  tag : Tag
  id : String
deriving DecidableEq

/-- A status of `arguments` or `running`. -/
def running (node : Node) : Bool :=
  match (node.prop (.known .status)).bind Value.asStr with
  | some status => status = "arguments" || status = "running"
  | none => false

/-- The identity of a lifecycle-bearing element. A tool call is one while it runs and names its
cause; where the identity is no text, the handle stands for it. -/
def lifecycleId (handle : Handle) (node : Node) : Option LifecycleId :=
  let named (identity : Option Value) : LifecycleId :=
    { tag := node.tag, id := (identity.bind Value.asStr).getD (toString handle) }
  match node.tag with
  | .known .subagent | .known .job =>
    some (named ((node.prop (.known .id)).or (node.prop (.known .cause))))
  | .custom _ =>
    if running node then (node.prop (.known .cause)).map fun cause => named (some cause) else none
  | .known _ => none

/-- The identity under a handle of a snapshot. -/
def identity (s : Snapshot) (handle : Handle) : Option LifecycleId :=
  if handle ∈ s.handles then (s.nodes handle).bind (lifecycleId handle) else none

/-- `lifecycle_nodes`. -/
def lifecycleNodes (s : Snapshot) : List (LifecycleId × Handle) :=
  assignAll (s.handles.filterMap fun h => (identity s h).map (·, h)) []

/-- The loop of `diff`: what is terminated, what is retained, and what is left of the second map. -/
def diffFrom : List (LifecycleId × Handle) → List (LifecycleId × Handle) →
    List Handle × List (Handle × Handle) × List (LifecycleId × Handle)
  | [], after => ([], [], after)
  | (id, old) :: before, after =>
    match first id after with
    | some new =>
      let work := diffFrom before (remove id after)
      (work.1, (old, new) :: work.2.1, work.2.2)
    | none =>
      let work := diffFrom before after
      (old :: work.1, work.2.1, work.2.2)

/-- `diff`. -/
def diff (before after : Snapshot) : LifecycleWork :=
  let work := diffFrom (lifecycleNodes before) (lifecycleNodes after)
  { terminate := work.1.insertionSort (· ≤ ·)
    spawn := (work.2.2.map Prod.snd).insertionSort (· ≤ ·)
    retained := work.2.1.insertionSort fun p q => p.1 < q.1 ∨ p.1 = q.1 ∧ p.2 ≤ q.2 }

/-! ## The maps -/

theorem nodup_keys_assignAll [DecidableEq κ] (values : List (κ × ν)) {l : List (κ × ν)}
    (h : (l.map Prod.fst).Nodup) : ((assignAll values l).map Prod.fst).Nodup := by
  induction values generalizing l with
  | nil => exact h
  | cons p values ih => exact ih (nodup_assign h)

theorem mem_of_mem_assignAll [DecidableEq κ] {values l : List (κ × ν)} {p : κ × ν}
    (h : p ∈ assignAll values l) : p ∈ values ∨ p ∈ l := by
  induction values generalizing l with
  | nil => exact .inr h
  | cons q values ih =>
    rcases ih h with hp | hp
    · exact .inl (List.mem_cons_of_mem _ hp)
    · rcases eq_or_mem_of_mem_assign hp with rfl | hp
      · exact .inl List.mem_cons_self
      · exact .inr hp

section Nodes

variable {s : Snapshot} {id : LifecycleId} {h : Handle}

theorem nodup_keys (s : Snapshot) : ((lifecycleNodes s).map Prod.fst).Nodup :=
  nodup_keys_assignAll _ .nil

theorem identity_of_mem (hmem : (id, h) ∈ lifecycleNodes s) : identity s h = some id := by
  rcases mem_of_mem_assignAll hmem with hmem | hmem
  · obtain ⟨h', -, hh'⟩ := List.mem_filterMap.1 hmem
    obtain ⟨id', hid', heq⟩ := Option.map_eq_some_iff.1 hh'
    cases heq
    exact hid'
  · cases hmem

/-- The map has an entry for every identity. -/
theorem exists_mem_of_identity (hid : identity s h = some id) : ∃ h', (id, h') ∈ lifecycleNodes s := by
  have hhandle : h ∈ s.handles := by
    by_contra hnot
    rw [identity, if_neg hnot] at hid
    cases hid
  have hkey : id ∈ (lifecycleNodes s).map Prod.fst := by
    refine mem_keys_assignAll.2 (.inl (List.mem_map.2 ⟨(id, h), List.mem_filterMap.2 ⟨h, hhandle, ?_⟩, rfl⟩))
    rw [hid]
    rfl
  obtain ⟨⟨id', h'⟩, hmem, rfl⟩ := List.mem_map.1 hkey
  exact ⟨h', hmem⟩

theorem unique_of_mem {h' : Handle} (hmem : (id, h) ∈ lifecycleNodes s)
    (hmem' : (id, h') ∈ lifecycleNodes s) : h = h' := by
  have hfirst := (first_eq_some_iff (nodup_keys s)).2 hmem
  rw [(first_eq_some_iff (nodup_keys s)).2 hmem'] at hfirst
  exact (Option.some.inj hfirst).symm

/-- No element has two entries. -/
theorem nodup_values (s : Snapshot) : ((lifecycleNodes s).map Prod.snd).Nodup := by
  refine (List.nodup_map_iff_inj_on (nodup_keys s).of_map).2 ?_
  rintro ⟨id, h⟩ hmem ⟨id', h'⟩ hmem' rfl
  have hid := identity_of_mem hmem
  rw [identity_of_mem hmem'] at hid
  cases hid
  rfl

theorem count_values (h : Handle) : ((lifecycleNodes s).map Prod.snd).count h = 1 ↔
    ∃ id, (id, h) ∈ lifecycleNodes s := by
  rw [(nodup_values s).count]
  simp

/-- No two lifecycle-bearing elements have one identity. -/
def Distinct (s : Snapshot) : Prop :=
  ∀ h h' id, identity s h = some id → identity s h' = some id → h = h'

/-- The map keeps every element exactly when the identities are distinct. -/
theorem distinct_iff : Distinct s ↔
    ∀ h id, identity s h = some id → ((lifecycleNodes s).map Prod.snd).count h = 1 := by
  constructor
  · intro hdistinct h id hid
    obtain ⟨h', hmem⟩ := exists_mem_of_identity hid
    cases hdistinct h h' id hid (identity_of_mem hmem)
    exact (count_values h).2 ⟨id, hmem⟩
  · intro hall h h' id hid hid'
    have hmem : ∀ {h}, identity s h = some id → (id, h) ∈ lifecycleNodes s := by
      intro h hid
      obtain ⟨id', hmem⟩ := (count_values h).1 (hall h id hid)
      cases hid.symm.trans (identity_of_mem hmem)
      exact hmem
    exact unique_of_mem (hmem hid) (hmem hid')

end Nodes

/-! ## The loop -/

theorem count_remove [DecidableEq κ] [DecidableEq ν] {id : κ} {new : ν} {l : List (κ × ν)}
    (hkeys : (l.map Prod.fst).Nodup) (hfirst : first id l = some new) (h : ν) :
    ((remove id l).map Prod.snd).count h + [new].count h = (l.map Prod.snd).count h := by
  induction l with
  | nil => cases hfirst
  | cons p l ih =>
    obtain ⟨k, v⟩ := p
    rw [List.map_cons, List.nodup_cons] at hkeys
    rw [first] at hfirst
    split at hfirst
    · next heq =>
      obtain rfl : v = new := Option.some.inj hfirst
      subst heq
      have hrest : remove k ((k, v) :: l) = l := by
        have hout : l.filter (fun p => p.1 ≠ k) = l := by
          refine List.filter_eq_self.2 fun p hp => ?_
          have hne : p.1 ≠ k := by
            intro heq
            exact hkeys.1 (List.mem_map.2 ⟨p, hp, heq⟩)
          simpa using hne
        rw [remove, List.filter_cons_of_neg (by simp), hout]
      rw [hrest]
      simp only [List.map_cons, List.count_cons, List.count_nil, Nat.zero_add]
    · next hne =>
      have hkeep : remove id ((k, v) :: l) = (k, v) :: remove id l :=
        List.filter_cons_of_pos (by simpa using hne)
      have ih := ih hkeys.2 hfirst
      rw [hkeep]
      simp only [List.map_cons, List.count_cons] at ih ⊢
      omega

section Loop

variable {before after : List (LifecycleId × Handle)}

/-- Every element of the first map is terminated or retained, once. -/
theorem count_diffFrom_left (h : Handle) :
    (diffFrom before after).1.count h + ((diffFrom before after).2.1.map Prod.fst).count h =
      (before.map Prod.snd).count h := by
  induction before generalizing after with
  | nil => rfl
  | cons p before ih =>
    obtain ⟨id, old⟩ := p
    rw [diffFrom]
    split
    · next new hfirst =>
      have hcount := @ih (remove id after)
      simp only [List.map_cons, List.count_cons]
      omega
    · have hcount := @ih after
      simp only [List.map_cons, List.count_cons]
      omega

/-- Every element of the second map is retained or left over, once. -/
theorem count_diffFrom_right (hkeys : (after.map Prod.fst).Nodup) (h : Handle) :
    ((diffFrom before after).2.2.map Prod.snd).count h +
      ((diffFrom before after).2.1.map Prod.snd).count h = (after.map Prod.snd).count h := by
  induction before generalizing after with
  | nil => rfl
  | cons p before ih =>
    obtain ⟨id, old⟩ := p
    rw [diffFrom]
    split
    · next new hfirst =>
      have hrest : ((remove id after).map Prod.fst).Nodup :=
        hkeys.sublist (List.filter_sublist.map Prod.fst)
      have ih := ih hrest
      have hcount := count_remove hkeys hfirst h
      rw [List.count_singleton] at hcount
      simp only [List.map_cons, List.count_cons]
      omega
    · exact ih hkeys

/-- Retained elements have the same identity. -/
theorem mem_retained (hkeys : (after.map Prod.fst).Nodup) {old new : Handle}
    (hmem : (old, new) ∈ (diffFrom before after).2.1) :
    ∃ id, (id, old) ∈ before ∧ (id, new) ∈ after := by
  induction before generalizing after with
  | nil => cases hmem
  | cons p before ih =>
    obtain ⟨id, old'⟩ := p
    rw [diffFrom] at hmem
    split at hmem
    · next new' hfirst =>
      rcases List.mem_cons.1 hmem with heq | hmem
      · cases heq
        exact ⟨id, List.mem_cons_self, (first_eq_some_iff hkeys).1 hfirst⟩
      · obtain ⟨id', hold, hnew⟩ := ih (hkeys.sublist (List.filter_sublist.map Prod.fst)) hmem
        exact ⟨id', List.mem_cons_of_mem _ hold, List.mem_of_mem_filter hnew⟩
    · obtain ⟨id', hold, hnew⟩ := ih hkeys hmem
      exact ⟨id', List.mem_cons_of_mem _ hold, hnew⟩

end Loop

/-! ## Completeness -/

/-- Every lifecycle-bearing element of the first snapshot is in exactly one of `terminate` and the
left of `retained`, every one of the second in exactly one of `spawn` and the right of `retained`,
and `retained` pairs elements of one identity. -/
structure Complete (before after : Snapshot) (work : LifecycleWork) : Prop where
  left : ∀ h id, identity before h = some id →
    work.terminate.count h + (work.retained.map Prod.fst).count h = 1
  right : ∀ h id, identity after h = some id →
    work.spawn.count h + (work.retained.map Prod.snd).count h = 1
  retained : ∀ p ∈ work.retained, ∃ id, identity before p.1 = some id ∧ identity after p.2 = some id

/-- The work of `diff` counts what its maps hold. -/
theorem count_diff (before after : Snapshot) (h : Handle) :
    ((diff before after).terminate.count h + ((diff before after).retained.map Prod.fst).count h =
      ((lifecycleNodes before).map Prod.snd).count h) ∧
    ((diff before after).spawn.count h + ((diff before after).retained.map Prod.snd).count h =
      ((lifecycleNodes after).map Prod.snd).count h) := by
  have hretained := List.perm_insertionSort
    (fun p q : Handle × Handle => p.1 < q.1 ∨ p.1 = q.1 ∧ p.2 ≤ q.2)
    (diffFrom (lifecycleNodes before) (lifecycleNodes after)).2.1
  constructor
  · rw [diff, (List.perm_insertionSort _ _).count_eq, (hretained.map Prod.fst).count_eq]
    exact count_diffFrom_left h
  · rw [diff, (List.perm_insertionSort _ _).count_eq, (hretained.map Prod.snd).count_eq]
    exact count_diffFrom_right (nodup_keys after) h

/-- `diff` accounts for every element exactly when in neither snapshot two lifecycle-bearing
elements have one tag and one identity text. -/
theorem complete_diff_iff (before after : Snapshot) :
    Complete before after (diff before after) ↔ Distinct before ∧ Distinct after := by
  rw [distinct_iff, distinct_iff]
  constructor
  · intro h
    refine ⟨fun k id hid => ?_, fun k id hid => ?_⟩
    · rw [← (count_diff before after k).1]
      exact h.left k id hid
    · rw [← (count_diff before after k).2]
      exact h.right k id hid
  · rintro ⟨hbefore, hafter⟩
    refine ⟨fun k id hid => ?_, fun k id hid => ?_, ?_⟩
    · rw [(count_diff before after k).1]
      exact hbefore k id hid
    · rw [(count_diff before after k).2]
      exact hafter k id hid
    · rintro ⟨old, new⟩ hmem
      obtain ⟨id, hold, hnew⟩ := mem_retained (nodup_keys after) ((List.mem_insertionSort _).1 hmem)
      exact ⟨id, identity_of_mem hold, identity_of_mem hnew⟩

/-- Inserts the job list and jobs with the given identities into it. -/
def insertJobs (texts : List String) : OwnerOp :=
  .apply ⟨⟨0, Nat.two_pow_pos 128⟩, none, .ins Dom.meta none { tag := .known .jobs } ::
    texts.map fun text => .ins 5 none { tag := .known .job, props := [(.known .id, .str text)] }⟩ none

/-- The snapshot of a new tree with these jobs. -/
def jobs (texts : List String) : Snapshot :=
  (Dom.new.perform (insertJobs texts)).1.snapshot
    (Dom.Reachable.perform (insertJobs texts) (.withHighWater 4)).live

/-- Of two jobs with one identity that are gone, only one is terminated. -/
theorem duplicate_job_dropped :
    ¬ Complete (jobs ["a", "a"]) (jobs []) (diff (jobs ["a", "a"]) (jobs [])) := by
  intro h
  have hleft := h.left 6 { tag := .known .job, id := "a" } (by decide +kernel)
  revert hleft
  decide +kernel

end Rewind

end OhMyPi
