import OhMyPi.Journal.FileLemmas

/-! Branch selection through journal `prior` links (`journal/src/chain.rs`). In a validated history
every parent stands before its child, so the walk from the file tail ends at the genesis. -/

namespace OhMyPi

/-- The last position of an identity, as the map built over the file holds it. -/
def byId (entries : List Entry) (id : EntryId) : Option Nat :=
  (entries.zipIdx.reverse.find? fun p => p.1.id = id).map (·.2)

/-- The parent of the entry at `index`: its `prior`, or the preceding entry in file order. -/
def parentIndex (entries : List Entry) (index : Nat) : Option Nat :=
  match entries[index]?.bind (·.prior) with
  | some prior => byId entries prior
  | none => if index = 0 then none else some (index - 1)

/-- The loop of `chain_indices`: `reversed` are the positions walked so far, newest first, each
visited once, so as many rounds as there are entries are enough. -/
def chainWalk (entries : List Entry) : Nat → List Nat → Option Nat → List Nat
  | 0, reversed, _ => reversed
  | _ + 1, reversed, none => reversed
  | fuel + 1, reversed, some index =>
    if index ∈ reversed then reversed
    else chainWalk entries fuel (index :: reversed) (parentIndex entries index)

/-- `chain_indices`, oldest first. -/
def chainIndices (entries : List Entry) : List Nat :=
  chainWalk entries entries.length []
    (if entries.length = 0 then none else some (entries.length - 1))

/-- `live_chain`: the tail-selected chain from oldest to newest. -/
def liveChain (entries : List Entry) : List Entry :=
  (chainIndices entries).filterMap (entries[·]?)

/-- `abandoned`: the entries not reachable from the file tail. -/
def abandoned (entries : List Entry) : List Entry :=
  (List.range entries.length).filterMap fun index =>
    if index ∈ chainIndices entries then none else entries[index]?

variable {json : SerdeJson} {es : List Entry} {e e' : Entry} {id : EntryId} {i j p : Nat}

/-! ## The walk in a validated history -/

theorem byId_eq_some (h : byId es id = some p) : ∃ e, es[p]? = some e ∧ e.id = id := by
  obtain ⟨⟨e, q⟩, hfind, rfl⟩ := Option.map_eq_some_iff.1 h
  have hid := List.find?_some hfind
  have hmem := List.mem_reverse.1 (List.mem_of_find?_eq_some hfind)
  exact ⟨e, List.mem_zipIdx_iff_getElem?.1 hmem, by simpa using hid⟩

theorem byId_isSome (h : es[p]? = some e) : ∃ q, byId es e.id = some q := by
  have hmem : (e, p) ∈ es.zipIdx.reverse :=
    List.mem_reverse.2 (List.mem_zipIdx_iff_getElem?.2 h)
  cases hfind : es.zipIdx.reverse.find? fun p => p.1.id = e.id with
  | none => simpa using List.find?_eq_none.1 hfind _ hmem
  | some p => exact ⟨p.2, by simp [byId, hfind]⟩

/-- Each entry of a validated history is valid against the identities before it. -/
theorem validateHistory_getElem (h : validateHistory json es = .ok ()) (hi : es[i]? = some e) :
    FieldsValid json e.kind e.by_ e.prior e.label e.data i ((es.take i).map (·.id)) ∧
      e.id ∉ (es.take i).map (·.id) := by
  obtain ⟨hlt, rfl⟩ := List.getElem?_eq_some_iff.1 hi
  have hpre : es.take i ++ [es[i]] <+: es := by
    rw [← List.take_succ_eq_append_getElem hlt]
    exact List.take_prefix ..
  obtain ⟨-, hvalid, hfresh⟩ := validateHistory_concat.1 (validateHistory_of_isPrefix hpre h)
  rw [validateEntry, validateFields_eq_ok, List.length_take, Nat.min_eq_left hlt.le] at hvalid
  exact ⟨hvalid, hfresh⟩

/-- Identities of a validated history name one position. -/
theorem validateHistory_inj (h : validateHistory json es = .ok ()) (hi : es[i]? = some e)
    (hj : es[j]? = some e') (hid : e.id = e'.id) : i = j := by
  have hlt : ∀ {i j : Nat} {e e' : Entry}, es[i]? = some e → es[j]? = some e' → e.id = e'.id →
      ¬ i < j := by
    intro i j e e' hi hj hid hij
    refine (validateHistory_getElem h hj).2 (List.mem_map.2 ⟨e, ?_, hid⟩)
    exact List.mem_of_getElem? (by rw [List.getElem?_take, if_pos hij, hi])
  rcases Nat.lt_trichotomy i j with hij | hij | hij
  · exact absurd hij (hlt hi hj hid)
  · exact hij
  · exact absurd hij (hlt hj hi hid.symm)

/-- Only the genesis has no parent, and every parent stands before its child. -/
theorem parentIndex_lt (h : validateHistory json es = .ok ()) (hi : i < es.length) :
    (i = 0 ∧ parentIndex es i = none) ∨ ∃ p < i, parentIndex es i = some p := by
  have hget : es[i]? = some es[i] := List.getElem?_eq_getElem hi
  obtain ⟨hvalid, -⟩ := validateHistory_getElem h hget
  rw [parentIndex, hget, Option.bind_some]
  cases hprior : es[i].prior with
  | none =>
    rcases Nat.eq_zero_or_pos i with rfl | hpos
    · exact .inl ⟨rfl, rfl⟩
    · exact .inr ⟨i - 1, by omega, by simp; omega⟩
  | some prior =>
    obtain ⟨e, he, rfl⟩ := List.mem_map.1 (hvalid.prior prior hprior)
    obtain ⟨q, hq⟩ := List.getElem?_of_mem he
    rw [List.getElem?_take] at hq
    split at hq
    · next hqi =>
      obtain ⟨p, hp⟩ := byId_isSome hq
      obtain ⟨e', he', hid⟩ := byId_eq_some hp
      exact .inr ⟨p, validateHistory_inj h he' hq hid ▸ hqi, hp⟩
    · cases hq

private theorem chainWalk_head (h : validateHistory json es = .ok ()) (hi : i < es.length)
    (hfuel : i < fuel) (hvisited : ∀ v ∈ reversed, i < v) :
    (chainWalk es fuel reversed (some i)).head? = some 0 := by
  -- Positions strictly decrease along the walk, so none is met twice.
  induction i using Nat.strongRecOn generalizing fuel reversed with
  | ind i ih =>
    obtain ⟨fuel, rfl⟩ : ∃ f, fuel = f + 1 := ⟨fuel - 1, by omega⟩
    rw [chainWalk, if_neg fun hmem => lt_irrefl _ (hvisited i hmem)]
    rcases parentIndex_lt h hi with ⟨rfl, hnone⟩ | ⟨p, hp, hsome⟩
    · rw [hnone]
      cases fuel <;> rfl
    · rw [hsome]
      refine ih p hp (by omega) (by omega) fun v hv => ?_
      rcases List.mem_cons.1 hv with rfl | hv
      · exact hp
      · exact hp.trans (hvisited v hv)

/-- The live chain of a validated history begins at its genesis. -/
theorem chainIndices_head (h : validateHistory json es = .ok ()) (hne : es ≠ []) :
    (chainIndices es).head? = some 0 := by
  have hpos := List.length_pos_iff.2 hne
  rw [chainIndices, if_neg (by omega)]
  exact chainWalk_head h (by omega) (by omega) (by simp)

end OhMyPi
