import OhMyPi.Journal.AppendFailure
import OhMyPi.Journal.PrefixScan

/-! The identities of entries only grow. A writer starts on an empty file or on whatever file it finds, with
its generator above all identities there; each append draws the next one, whatever the clock says, and an
append that is refused afterwards leaves its identity unused. -/

namespace OhMyPi

open Sse

variable {json : SerdeJson}

/-- The complete frames of a file are those of the entries, and nothing follows them. -/
structure Holds (json : SerdeJson) (file : Bytes) (es : List Entry) : Prop where
  result : (decoding json file 0).result = .ok 0
  entries : (decoding json file 0).frames.map (·.entry) = es

/-- The identity that an append draws, if it gets so far. -/
def Journal.drawn (json : SerdeJson) (j : Journal) (tick : Tick) (draft : EntryDraft) : List EntryId :=
  match validateDraft json draft j.entryCount j.ids, j.generator.generate tick with
  | .ok (), .ok (id, _) => [id]
  | _, _ => []

/-- A writer over a file that holds `es`, after appends that failed have drawn `spent`. Any file can be
opened, that of a previous writer among them. -/
inductive Journal.Grown (json : SerdeJson) : Journal → List Entry → List EntryId → Prop
  | create : Grown json .create [] []
  | «open» {reader : Reader} (h : Journal.open json reader = .ok (j, es)) : Grown json j es []
  | append (h : Grown json j es spent) (happend : j.append json tick .ok draft = (.ok e, j')) :
    Grown json j' (es ++ [e]) spent
  | refuse (h : Grown json j es spent) (happend : j.append json tick .ok draft = (.error err, j')) :
    Grown json j' es (spent ++ j.drawn json tick draft)

/-! ## What the file holds -/

/-- Decoding goes on behind complete frames. -/
theorem decoding_append (h : (decoding json bytes start).result = .ok 0) (rest : Bytes) :
    (decoding json (bytes ++ rest) start).result = (decoding json rest (start + bytes.length)).result ∧
      (decoding json (bytes ++ rest) start).frames =
        (decoding json bytes start).frames ++ (decoding json rest (start + bytes.length)).frames := by
  induction hn : bytes.length using Nat.strongRecOn generalizing bytes start with
  | ind n ih =>
    cases hnext : framing.next bytes with
    | none =>
      rw [decoding_of_none hnext] at h ⊢
      have hnil : bytes = [] := by
        split at h
        · exact List.length_eq_zero_iff.1 (Except.ok.inj h)
        · cases h
      subst hnil
      subst hn
      exact ⟨rfl, rfl⟩
    | some found =>
      obtain ⟨block, tail⟩ := found
      have hbytes := framing.next_eq hnext
      have hlt := Framing.length_lt_of_next hnext
      have hlength : start + n = start + block.length + tail.length := by
        rw [← hn, hbytes, List.length_append, Nat.add_assoc]
      rw [decoding_of_some hnext] at h ⊢
      rw [decoding_of_some (framing.next_append hnext rest), hlength]
      split at h
      case isFalse => cases h
      next hsize =>
      simp only [if_pos hsize]
      cases hblank : isBlank block with
      | true =>
        rw [hblank] at h
        exact ih _ (hn ▸ hlt) h rfl
      | false =>
        rw [hblank] at h
        cases hparse : parseFrame json block with
        | error source =>
          simp only [hparse] at h
          cases h
        | ok entry =>
          simp only [hparse] at h ⊢
          obtain ⟨hresult, hframes⟩ := ih _ (hn ▸ hlt) h rfl
          exact ⟨hresult, congrArg _ hframes⟩

/-- Without its torn rest the file decodes to the same frames. -/
theorem decoding_clean (h : (decoding json bytes start).result = .ok torn) :
    ∃ clean, (decoding json bytes start).cleanLen = start + clean ∧ clean + torn = bytes.length ∧
      (decoding json (bytes.take clean) start).result = .ok 0 ∧
      (decoding json (bytes.take clean) start).frames = (decoding json bytes start).frames := by
  induction hn : bytes.length using Nat.strongRecOn generalizing bytes start with
  | ind n ih =>
    cases hnext : framing.next bytes with
    | none =>
      rw [decoding_of_none hnext] at h ⊢
      split at h
      · obtain rfl := Except.ok.inj h
        refine ⟨0, rfl, by rw [Nat.zero_add, hn], ?_⟩
        rw [List.take_zero, decoding_of_none framing.next_nil]
        exact ⟨rfl, rfl⟩
      · cases h
    | some found =>
      obtain ⟨block, tail⟩ := found
      have hframe : framing.IsFrame block := Framing.isFrame_of_next hnext
      have hbytes := framing.next_eq hnext
      have hlt := Framing.length_lt_of_next hnext
      rw [decoding_of_some hnext] at h ⊢
      split at h
      case isFalse => cases h
      next hsize =>
      have hcut : ∀ clean, framing.next (bytes.take (block.length + clean)) = some (block, tail.take clean) := by
        intro clean
        rw [hbytes, List.take_append, List.take_of_length_le (Nat.le_add_right _ _), Nat.add_sub_cancel_left]
        exact hframe.next _
      have hlength : ∀ clean, clean + torn = tail.length → block.length + clean + torn = n := by
        intro clean hclean
        rw [← hn, hbytes, List.length_append, Nat.add_assoc, hclean]
      simp only [if_pos hsize]
      cases hblank : isBlank block with
      | true =>
        rw [hblank] at h
        obtain ⟨clean, hclean, htorn, hresult, hframes⟩ := ih _ (hn ▸ hlt) h rfl
        refine ⟨block.length + clean, hclean.trans (Nat.add_assoc ..), hlength clean htorn, ?_⟩
        rw [decoding_of_some (hcut clean), if_pos hsize, if_pos hblank]
        exact ⟨hresult, hframes⟩
      | false =>
        rw [hblank] at h
        cases hparse : parseFrame json block with
        | error source =>
          simp only [hparse] at h
          cases h
        | ok entry =>
          simp only [hparse] at h ⊢
          obtain ⟨clean, hclean, htorn, hresult, hframes⟩ := ih _ (hn ▸ hlt) h rfl
          refine ⟨block.length + clean, hclean.trans (Nat.add_assoc ..), hlength clean htorn, ?_⟩
          rw [decoding_of_some (hcut clean), if_pos hsize, if_neg (by rw [hblank]; exact Bool.false_ne_true),
            hparse]
          exact ⟨hresult, congrArg (List.cons _) hframes⟩

theorem Holds.append (h : Holds json file es) (hw : Writable json e) : Holds json (file ++ frameBytes e) (es ++ [e]) := by
  obtain ⟨hresult, hframes⟩ := decoding_append h.result (frameBytes e)
  have hone : ∀ e' ∈ [e], Writable json e' := fun e' he' => by rwa [List.mem_singleton.1 he']
  have hlast := decoding_frames hone (0 + file.length)
  rw [frames_singleton] at hlast
  refine ⟨by rw [hresult, hlast], ?_⟩
  rw [hframes, hlast, List.map_append, h.entries]
  rfl

theorem holds_nil : Holds json [] [] := by
  constructor <;> rw [decoding_of_none framing.next_nil] <;> rfl

theorem open_eq_ok {reader : Reader} (h : Journal.open json reader = .ok (j, es)) :
    ∃ decoded, (decoding json reader.bytes 0).decoded = .ok decoded ∧ es = decoded.entries ∧
      j.file = (if decoded.tornLen ≠ 0 then reader.bytes.take decoded.cleanLen else reader.bytes) ∧
      j.generator = .seeded ((es.map (·.id)).foldl Journal.raiseFloor none) := by
  rw [Journal.open, Except.bind_eq_ok] at h
  obtain ⟨decoded, hdecoded, h⟩ := h
  cases h
  exact ⟨decoded, (decodeCommitted_eq_ok.1 hdecoded).1, rfl, rfl, rfl⟩

/-- A file that was opened holds what it was read to, the torn rest being cut off. -/
theorem holds_open {reader : Reader} (h : Journal.open json reader = .ok (j, es)) : Holds json j.file es := by
  obtain ⟨decoded, hdecoded, rfl, hfile, -⟩ := open_eq_ok h
  obtain ⟨hresult, hentries, hclean⟩ := decoded_eq_ok.1 hdecoded
  rw [hfile]
  split
  · obtain ⟨clean, hclean', -, hresult', hframes⟩ := decoding_clean hresult
    rw [← hclean, hclean', Nat.zero_add]
    exact ⟨hresult', by rw [hframes, hentries]⟩
  · next htorn =>
    rw [not_not.1 htorn] at hresult
    exact ⟨hresult, hentries⟩

theorem Journal.Grown.holds (h : Journal.Grown json j es spent) : Holds json j.file es := by
  induction h with
  | create => exact holds_nil
  | «open» h => exact holds_open h
  | @append j es spent tick draft e j' h happend ih =>
    rcases append_cases j tick .ok draft with ⟨err, gen, heq, -⟩ | ⟨id, gen, -, -, hw, heq⟩
    · cases happend.symm.trans heq
    · cases happend.symm.trans heq
      exact ih.append hw
  | @refuse j es spent tick draft err j' h happend ih =>
    rcases append_cases j tick .ok draft with ⟨err, gen, heq, -⟩ | ⟨id, gen, -, -, hw, heq⟩
    · cases happend.symm.trans heq
      exact ih
    · cases happend.symm.trans heq

/-! ## What the generator has seen -/

theorem generate_error {gen : MonotonicUlid} (h : gen.generate tick = .error err) :
    ∃ last, gen.last = some last ∧ ∀ id : EntryId, id.val ≤ last.val := by
  rw [MonotonicUlid.generate] at h
  split at h
  · cases h
  · next last hlast =>
    refine ⟨last, hlast, fun id => ?_⟩
    split at h
    · split at h
      · cases h
      · next hmax =>
        have hlt := id.lt
        omega
    · cases h

/-- The last identity of the generator is the greatest of those seen. -/
structure MonotonicUlid.Latest (gen : MonotonicUlid) (ids : List EntryId) : Prop where
  bounds : gen.Bounds ids
  mem : ∀ last, gen.last = some last → last ∈ ids

theorem foldl_raiseFloor_mem {ids : List EntryId} (h : ids.foldl Journal.raiseFloor floor = some last) :
    last ∈ ids ∨ floor = some last := by
  induction ids generalizing floor with
  | nil => exact .inr h
  | cons id ids ih =>
    rcases ih h with hmem | hfloor
    · exact .inl (List.mem_cons_of_mem id hmem)
    · cases floor with
      | none =>
        obtain rfl := Option.some.inj hfloor
        exact .inl List.mem_cons_self
      | some prior =>
        rw [Journal.raiseFloor, Option.some.injEq] at hfloor
        split at hfloor
        · subst hfloor
          exact .inl List.mem_cons_self
        · subst hfloor
          exact .inr rfl

theorem bounds_nil (gen : MonotonicUlid) : gen.Bounds [] := fun _ hid => absurd hid List.not_mem_nil

theorem latest_seeded (ids : List EntryId) :
    (MonotonicUlid.seeded (ids.foldl Journal.raiseFloor none)).Latest ids where
  bounds := raiseFloor_bounds (bounds_nil ⟨none⟩) ids
  mem last hlast := (foldl_raiseFloor_mem hlast).resolve_right (Option.some_ne_none last).symm

theorem MonotonicUlid.Latest.generate {gen : MonotonicUlid} {id : EntryId} (h : gen.Latest ids)
    (hgen : gen.generate tick = .ok (id, gen')) : gen'.Latest (ids ++ [id]) where
  bounds := (h.bounds.generate hgen).2
  mem last hlast := by
    rw [MonotonicUlid.generate_last hgen, Option.some.injEq] at hlast
    rw [← hlast]
    exact List.mem_append_right ids List.mem_cons_self

theorem MonotonicUlid.Latest.of_mem {gen : MonotonicUlid} (h : gen.Latest ids)
    (heq : ∀ id, id ∈ ids' ↔ id ∈ ids) : gen.Latest ids' where
  bounds id hid := h.bounds id ((heq id).1 hid)
  mem last hlast := (heq last).2 (h.mem last hlast)

theorem drawn_eq {j : Journal} {id : EntryId} (hvalid : validateDraft json draft j.entryCount j.ids = .ok ())
    (hgen : j.generator.generate tick = .ok (id, gen)) : j.drawn json tick draft = [id] := by
  rw [Journal.drawn, hvalid, hgen]

/-- A refused append leaves the generator at the identity that it has drawn. -/
theorem MonotonicUlid.Latest.refuse {j : Journal} (h : j.generator.Latest ids)
    (happend : j.append json tick .ok draft = (.error err, j')) :
    j'.generator.Latest (ids ++ j.drawn json tick draft) := by
  cases hvalid : validateDraft json draft j.entryCount j.ids with
  | error e =>
    simp only [Journal.append, hvalid] at happend
    cases happend
    rw [Journal.drawn, hvalid, List.append_nil]
    exact h
  | ok =>
    cases hgen : j.generator.generate tick with
    | error e =>
      simp only [Journal.append, hvalid, hgen] at happend
      cases happend
      rw [Journal.drawn, hvalid, hgen, List.append_nil]
      exact h
    | ok drawn =>
      obtain ⟨id, gen⟩ := drawn
      rw [drawn_eq hvalid hgen]
      simp only [Journal.append, hvalid, hgen] at happend
      split at happend
      · cases happend
        exact h.generate hgen
      · cases happend

theorem Journal.Grown.latest (h : Journal.Grown json j es spent) :
    j.generator.Latest (es.map (·.id) ++ spent) := by
  induction h with
  | create => exact ⟨bounds_nil _, fun _ hlast => nomatch hlast⟩
  | «open» h =>
    obtain ⟨decoded, -, rfl, -, hgenerator⟩ := open_eq_ok h
    rw [hgenerator, List.append_nil]
    exact latest_seeded _
  | @append j es spent tick draft e j' h happend ih =>
    rcases append_cases j tick .ok draft with ⟨err, gen, heq, -⟩ | ⟨id, gen, -, hgen, -, heq⟩
    · cases happend.symm.trans heq
    · cases happend.symm.trans heq
      refine (ih.generate hgen).of_mem fun other => ?_
      simp only [List.map_append, List.map_cons, List.map_nil, List.mem_append, List.mem_singleton]
      tauto
  | @refuse j es spent tick draft err j' h happend ih =>
    rw [← List.append_assoc]
    exact ih.refuse happend

theorem validatePrior_ne_ulid : validatePrior prior ids ≠ .error (.ulid source) := by
  intro h
  unfold validatePrior at h
  split at h
  · cases h
  · split at h <;> cases h

theorem validateFields_ne_ulid : validateFields json kind by_ prior label data index ids ≠ .error (.ulid source) := by
  intro h
  unfold validateFields at h
  split at h
  · cases h
  split at h
  · cases h
  split at h
  · cases h
  split at h
  · cases h
  cases hprior : validatePrior prior ids with
  | error e =>
    rw [hprior] at h
    cases h
    exact validatePrior_ne_ulid hprior
  | ok =>
    rw [hprior, Except.ok_bind] at h
    split at h
    · cases h
    split at h
    · cases h
    split at h
    · cases h
    split at h <;> cases h

theorem append_exhausted {j : Journal} (h : j.append json tick .ok draft = (.error (.ulid .exhausted), j')) :
    ∃ err, j.generator.generate tick = .error err := by
  cases hvalid : validateDraft json draft j.entryCount j.ids with
  | error e =>
    simp only [Journal.append, hvalid] at h
    cases h
    exact absurd hvalid validateFields_ne_ulid
  | ok =>
    cases hgen : j.generator.generate tick with
    | error e => exact ⟨e, rfl⟩
    | ok drawn =>
      simp only [Journal.append, hvalid, hgen] at h
      split at h
      · next e _ => cases e <;> cases h
      · cases h

/-- **Identities grow.** Whatever file a writer started on and whatever the clock and the entropy have been
since, the next entry's identity is greater than all in the file, and the next append only finds the
identities exhausted when one that was drawn before is the greatest there is. -/
theorem append_id_gt (h : Journal.Grown json j es spent) (tick : Tick) (draft : EntryDraft) :
    Holds json j.file es ∧
      (∀ e j', j.append json tick .ok draft = (.ok e, j') → ∀ e' ∈ es, e'.id.val < e.id.val) ∧
      ∀ j', j.append json tick .ok draft = (.error (.ulid .exhausted), j') →
        ∃ last ∈ es.map (·.id) ++ spent, ∀ id : EntryId, id.val ≤ last.val := by
  refine ⟨h.holds, fun e j' happend e' he' => ?_, fun j' happend => ?_⟩
  · rcases Journal.append_cases j tick .ok draft with ⟨err, gen, heq, -⟩ | ⟨id, gen, -, hgen, -, heq⟩
    · cases happend.symm.trans heq
    · cases happend.symm.trans heq
      obtain ⟨last, hlast, hle⟩ := h.latest.bounds e'.id
        (List.mem_append_left spent (List.mem_map_of_mem he'))
      exact hle.trans_lt (MonotonicUlid.generate_gt hgen hlast)
  · obtain ⟨err, hgen⟩ := append_exhausted happend
    obtain ⟨last, hlast, hmax⟩ := generate_error hgen
    exact ⟨last, h.latest.mem last hlast, hmax⟩

theorem seven_lt : 7 < 2 ^ 80 := by decide

/-- A clock that has run back to zero. -/
def zeroTick : Tick := ⟨0, 7, seven_lt⟩

/-- A turn behind the genesis, when the clock has run back to zero. -/
theorem append_id_gt_sample : ∃ (j : Journal) (e : Entry) (j' : Journal),
    Holds sampleJson j.file [sampleGenesis "\x7b\"version\":1\x7d"] ∧
      j.append sampleJson zeroTick .ok sampleTurn = (.ok e, j') ∧
      (sampleGenesis "\x7b\"version\":1\x7d").id.val < e.id.val := by
  have happend : Journal.create.append sampleJson sampleTick .ok
      (genesisDraft "\x7b\"version\":1\x7d") =
        (.ok (sampleGenesis "\x7b\"version\":1\x7d"), _) := rfl
  obtain ⟨hholds, hgt, -⟩ := append_id_gt (.append .create happend) zeroTick sampleTurn
  exact ⟨_, _, _, hholds, rfl, hgt _ _ rfl _ List.mem_cons_self⟩

end OhMyPi
