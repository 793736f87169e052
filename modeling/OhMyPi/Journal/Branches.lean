import OhMyPi.Lib.Lineage
import OhMyPi.Journal.Collection
import OhMyPi.Journal.Scanner
import OhMyPi.Session.Session

/-! Branches of a validated history: the live chain, the abandoned entries and pruning
(`journal/src/chain.rs`, `prune_abandoned` of `journal/src/gc.rs`). Both chain computations walk the
lineage of the tail along the parent links. -/

namespace OhMyPi

open Sse

variable {json : SerdeJson} {es : List Entry} {i p : Nat} {l : List Nat}

/-! ## Validation, entry by entry -/

/-- A history is valid when each entry is, against the identities before it, and is no repetition
of one of them. -/
theorem validateHistory_iff : validateHistory json es = .ok () ↔ ∀ i e, es[i]? = some e →
    FieldsValid json e.kind e.by_ e.prior e.label e.data i ((es.take i).map (·.id)) ∧
      e.id ∉ (es.take i).map (·.id) := by
  refine ⟨fun h i e hi => validateHistory_getElem h hi, fun h => ?_⟩
  induction es using List.reverseRecOn with
  | nil => rfl
  | append_singleton es e ih =>
    refine validateHistory_concat.2 ⟨ih fun i e' hi => ?_, ?_⟩
    · obtain ⟨hlt, -⟩ := List.getElem?_eq_some_iff.1 hi
      have hi' := h i e' (by rw [List.getElem?_append_left hlt]; exact hi)
      rwa [List.take_append_of_le_length hlt.le] at hi'
    · have hlast := h es.length e (by simp)
      rw [List.take_left] at hlast
      exact ⟨validateFields_eq_ok.2 hlast.1, hlast.2⟩

theorem parentIndex_descends (h : validateHistory json es = .ok ()) :
    ∀ i < es.length, ∀ p, parentIndex es i = some p → p < i := by
  intro i hi p hp
  rcases parentIndex_lt h hi with ⟨-, hnone⟩ | ⟨q, hq, hsome⟩
  · cases hnone.symm.trans hp
  · cases hsome.symm.trans hp
    exact hq

/-- Only the genesis starts a lineage. -/
theorem eq_zero_of_parentIndex (h : validateHistory json es = .ok ()) (hi : i < es.length)
    (hroot : parentIndex es i = none) : i = 0 := by
  rcases parentIndex_lt h hi with ⟨rfl, -⟩ | ⟨q, -, hsome⟩
  · rfl
  · cases hroot.symm.trans hsome

/-! ## The two walks -/

theorem chainWalk_eq (h : validateHistory json es = .ok ()) (hl : Lineage (parentIndex es) l i)
    (hi : i < es.length) (hfuel : i < fuel) (hvisited : ∀ v ∈ acc, i < v) :
    chainWalk es fuel acc (some i) = l ++ acc := by
  induction hl generalizing fuel acc with
  | root hroot =>
    obtain ⟨fuel, rfl⟩ : ∃ f, fuel = f + 1 := ⟨fuel - 1, by omega⟩
    rw [chainWalk, if_neg fun hmem => lt_irrefl _ (hvisited _ hmem), hroot]
    cases fuel <;> rfl
  | @step i p l hparent _ ih =>
    have hp := parentIndex_descends h i hi p hparent
    obtain ⟨fuel, rfl⟩ : ∃ f, fuel = f + 1 := ⟨fuel - 1, by omega⟩
    rw [chainWalk, if_neg fun hmem => lt_irrefl _ (hvisited _ hmem), hparent,
      ih (hp.trans hi) (by omega) ?_, List.append_assoc]
    · rfl
    · intro v hv
      rcases List.mem_cons.1 hv with rfl | hv
      · exact hp
      · exact hp.trans (hvisited v hv)

/-- `live_chain` walks the lineage of the tail. -/
theorem lineage_chainIndices (h : validateHistory json es = .ok ()) (hne : es ≠ []) :
    Lineage (parentIndex es) (chainIndices es) (es.length - 1) := by
  have hpos := List.length_pos_iff.2 hne
  obtain ⟨l, hl⟩ := Lineage.exists_of_lt es.length (parentIndex_descends h)
    (show es.length - 1 < es.length by omega)
  have hwalk : chainWalk es es.length [] (some (es.length - 1)) = l ++ [] :=
    chainWalk_eq h hl (by omega) (by omega) (by simp)
  rw [chainIndices, if_neg (by omega), hwalk, List.append_nil]
  exact hl

/-- The session walks the same lineage, from any entry of the file. -/
theorem Session.chainFrom_eq (h : validateHistory json es = .ok ())
    (hl : Lineage (parentIndex es) l i) (hi : i < es.length) (hrounds : i < rounds) :
    Session.chainFrom es rounds i = .ok l := by
  induction hl generalizing rounds with
  | @root i hroot =>
    obtain ⟨rounds, rfl⟩ : ∃ r, rounds = r + 1 := ⟨rounds - 1, by omega⟩
    cases eq_zero_of_parentIndex h hi hroot
    rw [Session.chainFrom]
    cases hprior : es[0]?.bind (·.prior) with
    | none => rfl
    | some prior =>
      rw [List.getElem?_eq_getElem hi, Option.bind_some] at hprior
      have hvalid := (validateHistory_getElem h (List.getElem?_eq_getElem hi)).1
      have := hvalid.prior prior hprior
      simp at this
  | @step i p l hparent _ ih =>
    have hp := parentIndex_descends h i hi p hparent
    obtain ⟨rounds, rfl⟩ : ∃ r, rounds = r + 1 := ⟨rounds - 1, by omega⟩
    have ih := ih (hp.trans hi) (show p < rounds by omega)
    rw [parentIndex] at hparent
    rw [Session.chainFrom]
    cases hprior : es[i]?.bind (·.prior) with
    | none =>
      rw [hprior] at hparent
      simp only at hparent
      split at hparent
      · cases hparent
      · next hne =>
        cases hparent
        simp only [if_neg hne, ih]
        rfl
    | some prior =>
      rw [hprior] at hparent
      simp only at hparent
      simp only [hparent, ih]
      rfl

/-! ## The live entries -/

section Live

variable (h : validateHistory json es = .ok ())
include h

theorem chainIndices_pairwise : (chainIndices es).Pairwise (· < ·) := by
  by_cases hne : es = []
  · subst hne
    exact .nil
  · have hpos := List.length_pos_iff.2 hne
    exact ((lineage_chainIndices h hne).pairwise_lt (parentIndex_descends h) (by omega)).1

theorem chainIndices_nodup : (chainIndices es).Nodup := (chainIndices_pairwise h).imp Nat.ne_of_lt

theorem chainIndices_lt : ∀ i ∈ chainIndices es, i < es.length := by
  intro i hi
  by_cases hne : es = []
  · subst hne
    cases hi
  · have hpos := List.length_pos_iff.2 hne
    have hle := ((lineage_chainIndices h hne).pairwise_lt (parentIndex_descends h) (by omega)).2 i hi
    omega

/-- The walked positions are the live ones in file order. -/
theorem chainIndices_eq_filter :
    chainIndices es = (List.range es.length).filter (· ∈ chainIndices es) := by
  refine List.Perm.eq_of_pairwise (fun a b _ _ hab hba => absurd hab (Nat.lt_asymm hba))
    (chainIndices_pairwise h) (List.pairwise_lt_range.filter _) ?_
  refine (List.perm_ext_iff_of_nodup (chainIndices_nodup h) (List.nodup_range.filter _)).2
    fun i => ?_
  simp only [List.mem_filter, List.mem_range, decide_eq_true_eq]
  exact ⟨fun hi => ⟨chainIndices_lt h i hi, hi⟩, And.right⟩

theorem liveChain_eq_map : (liveChain es).map some = (chainIndices es).map (es[·]?) := by
  have hlt := chainIndices_lt h
  rw [liveChain]
  generalize chainIndices es = l at hlt ⊢
  induction l with
  | nil => rfl
  | cons i l ih =>
    have hi := hlt i List.mem_cons_self
    rw [List.filterMap_cons, List.map_cons, ← ih fun j hj => hlt j (List.mem_cons_of_mem _ hj),
      List.getElem?_eq_getElem hi]
    rfl

theorem liveChain_getElem? (k : Nat) :
    (liveChain es)[k]? = (chainIndices es)[k]?.bind (es[·]?) := by
  have hk := congrArg (·[k]?) (liveChain_eq_map h)
  simp only [List.getElem?_map] at hk
  cases hidx : (chainIndices es)[k]? with
  | none =>
    rw [hidx] at hk
    simpa using hk
  | some i =>
    rw [hidx] at hk
    cases hget : (liveChain es)[k]? with
    | none =>
      rw [hget] at hk
      cases hk
    | some e =>
      rw [hget] at hk
      simpa using hk

/-- The position in the file of the live entry at `k`, and that of its predecessor. -/
theorem liveChain_position {k : Nat} {e : Entry} (hk : (liveChain es)[k]? = some e) :
    ∃ i, (chainIndices es)[k]? = some i ∧ es[i]? = some e := by
  rw [liveChain_getElem? h] at hk
  exact Option.bind_eq_some_iff.1 hk

theorem liveChain_pred {k : Nat} (hk : (chainIndices es)[k + 1]? = some i) :
    ∃ p, (chainIndices es)[k]? = some p ∧ parentIndex es i = some p := by
  obtain ⟨hlt, hi⟩ := List.getElem?_eq_some_iff.1 hk
  have hne : es ≠ [] := by
    rintro rfl
    exact absurd hlt (Nat.not_lt_zero _)
  have hchain := List.isChain_iff_getElem.1 (lineage_chainIndices h hne).isChain k hlt
  rw [hi] at hchain
  exact ⟨_, List.getElem?_eq_getElem (by omega), hchain⟩

theorem chainIndices_zero (hne : es ≠ []) : (chainIndices es)[0]? = some 0 := by
  rw [← List.head?_eq_getElem?]
  exact chainIndices_head h hne

/-- A live entry with a branch link follows the entry it names. -/
theorem liveChain_prior {k : Nat} {e : Entry} {prior : EntryId}
    (hk : (liveChain es)[k]? = some e) (hprior : e.prior = some prior) :
    ∃ n e', k = n + 1 ∧ (liveChain es)[n]? = some e' ∧ e'.id = prior := by
  obtain ⟨i, hi, he⟩ := liveChain_position h hk
  cases k with
  | zero =>
    have hne : es ≠ [] := by
      rintro rfl
      cases he
    cases hi.symm.trans (chainIndices_zero h hne)
    have hmem := (validateHistory_getElem h he).1.prior prior hprior
    simp at hmem
  | succ n =>
    obtain ⟨p, hp, hparent⟩ := liveChain_pred h hi
    rw [parentIndex, he, Option.bind_some, hprior] at hparent
    obtain ⟨e', he', hid⟩ := byId_eq_some hparent
    exact ⟨n, e', rfl, by rw [liveChain_getElem? h, hp]; exact he', hid⟩

theorem liveChain_inj {k n : Nat} {e e' : Entry} (hk : (liveChain es)[k]? = some e)
    (hn : (liveChain es)[n]? = some e') (hid : e.id = e'.id) : k = n := by
  obtain ⟨i, hi, he⟩ := liveChain_position h hk
  obtain ⟨j, hj, he'⟩ := liveChain_position h hn
  cases validateHistory_inj h he he' hid
  obtain ⟨hlt, -⟩ := List.getElem?_eq_some_iff.1 hi
  exact (List.getElem?_inj hlt (chainIndices_nodup h)).1 (hi.trans hj.symm)

/-- Taken alone, each live entry follows the one before it. -/
theorem parentIndex_liveChain {k : Nat} (hk : k + 1 < (liveChain es).length) :
    parentIndex (liveChain es) (k + 1) = some k := by
  have hget := List.getElem?_eq_getElem hk
  rw [parentIndex, hget, Option.bind_some]
  cases hprior : (liveChain es)[k + 1].prior with
  | none => rfl
  | some prior =>
    obtain ⟨n, e', hkn, hn, hid⟩ := liveChain_prior h hget hprior
    cases hkn
    obtain ⟨q, hq⟩ := byId_isSome hn
    obtain ⟨e'', he'', hid'⟩ := byId_eq_some hq
    rw [hid] at hq
    rw [liveChain_inj h he'' hn hid'] at hq
    exact hq

theorem parentIndex_liveChain_zero : parentIndex (liveChain es) 0 = none := by
  rw [parentIndex]
  cases hprior : (liveChain es)[0]?.bind (·.prior) with
  | none => rfl
  | some prior =>
    obtain ⟨e, he, hprior⟩ := Option.bind_eq_some_iff.1 hprior
    obtain ⟨n, -, hn, -⟩ := liveChain_prior h he hprior
    cases hn

/-- The live entries taken alone are a valid history. -/
theorem validateHistory_liveChain : validateHistory json (liveChain es) = .ok () := by
  refine validateHistory_iff.2 fun k e hk => ?_
  obtain ⟨i, hi, he⟩ := liveChain_position h hk
  obtain ⟨hvalid, -⟩ := validateHistory_getElem h he
  have hne : es ≠ [] := by
    rintro rfl
    cases he
  have hzero : k = 0 ↔ i = 0 := by
    have h0 := chainIndices_zero h hne
    constructor
    · rintro rfl
      cases hi.symm.trans h0
      rfl
    · rintro rfl
      obtain ⟨hlt, -⟩ := List.getElem?_eq_some_iff.1 hi
      exact (List.getElem?_inj hlt (chainIndices_nodup h)).1 (hi.trans h0.symm)
  refine ⟨{ hvalid with genesis := hzero.trans hvalid.genesis, prior := fun prior hprior => ?_ }, ?_⟩
  · obtain ⟨n, e', rfl, hn, hid⟩ := liveChain_prior h hk hprior
    refine List.mem_map.2 ⟨e', List.mem_of_getElem? (i := n) ?_, hid⟩
    rw [List.getElem?_take, if_pos (Nat.lt_succ_self n), hn]
  · intro hmem
    obtain ⟨e', he', hid⟩ := List.mem_map.1 hmem
    obtain ⟨n, hn⟩ := List.getElem?_of_mem he'
    rw [List.getElem?_take] at hn
    split at hn
    · next hlt =>
      cases liveChain_inj h hn hk hid
      exact lt_irrefl _ hlt
    · cases hn

theorem chainIndices_liveChain :
    chainIndices (liveChain es) = List.range (liveChain es).length := by
  cases hlen : (liveChain es).length with
  | zero => rw [List.length_eq_zero_iff.1 hlen]; rfl
  | succ n =>
    have hne : liveChain es ≠ [] := by
      rw [← List.length_pos_iff]
      omega
    have hlineage := lineage_chainIndices (validateHistory_liveChain h) hne
    rw [hlen] at hlineage
    refine hlineage.unique (Lineage.range n (parentIndex_liveChain_zero h) fun k hk => ?_)
    exact parentIndex_liveChain h (by omega)

end Live

theorem filterMap_range_getElem? (es : List Entry) :
    (List.range es.length).filterMap (es[·]?) = es := by
  induction es with
  | nil => rfl
  | cons e es ih =>
    rw [List.length_cons, List.range_succ_eq_map, List.filterMap_cons, List.filterMap_map]
    exact congrArg (e :: ·) ih

section Partition

variable (h : validateHistory json es = .ok ())
include h

/-- Pruning a second time removes nothing. -/
theorem liveChain_liveChain : liveChain (liveChain es) = liveChain es := by
  rw [liveChain, chainIndices_liveChain h, filterMap_range_getElem?]

theorem nodup_of_validateHistory : es.Nodup := by
  refine List.nodup_iff_injective_getElem.2 fun i j hij => Fin.ext ?_
  exact validateHistory_inj h (List.getElem?_eq_getElem i.isLt) (List.getElem?_eq_getElem j.isLt)
    (congrArg (·.id) hij)

/-- Every entry of the file is live or abandoned, once. -/
theorem liveChain_append_abandoned : (liveChain es ++ abandoned es).Perm es := by
  have habandoned : abandoned es =
      ((List.range es.length).filter (¬ · ∈ chainIndices es)).filterMap (es[·]?) := by
    rw [abandoned, List.filterMap_filter]
    congr 1
    funext index
    by_cases hlive : index ∈ chainIndices es <;> simp [hlive]
  conv_lhs => rw [liveChain, chainIndices_eq_filter h, habandoned, ← List.filterMap_append]
  conv_rhs => rw [← filterMap_range_getElem? es]
  refine List.Perm.filterMap _ ?_
  have hsplit := List.filter_append_perm (fun i => decide (i ∈ chainIndices es))
    (List.range es.length)
  simpa only [decide_not] using hsplit

theorem head?_liveChain : (liveChain es).head? = es.head? := by
  by_cases hne : es = []
  · subst hne
    rfl
  · rw [List.head?_eq_getElem?, liveChain_getElem? h, chainIndices_zero h hne,
      List.head?_eq_getElem?]
    rfl

end Partition

/-! ## Pruning -/

/-- Without its torn remainder a byte string decodes to the same frames. -/
theorem Sse.decoding_take (bytes : Bytes) (start : Nat)
    (h : (decoding json bytes start).result = .ok torn) :
    ∃ n, (decoding json bytes start).cleanLen = start + n ∧ n + torn = bytes.length ∧
      decoding json (bytes.take n) start =
        { decoding json bytes start with result := .ok 0 } := by
  induction hn : bytes.length using Nat.strongRecOn generalizing bytes start with
  | ind n ih =>
    subst hn
    cases hnext : framing.next bytes with
    | none =>
      rw [decoding_of_none hnext] at h ⊢
      simp only at h
      split at h
      · cases h
        exact ⟨0, rfl, Nat.zero_add _, decoding_of_none framing.next_nil⟩
      · cases h
    | some p =>
      obtain ⟨block, rest⟩ := p
      have hlt := Framing.length_lt_of_next hnext
      have hsplit := framing.next_eq hnext
      have hframe : framing.IsFrame block := Framing.isFrame_of_next hnext
      have htake (n : Nat) : bytes.take (block.length + n) = block ++ rest.take n := by
        rw [hsplit, List.take_length_add_append]
      rw [decoding_of_some hnext] at h ⊢
      split at h
      · next hfits =>
        rw [if_pos hfits]
        cases hblank : isBlank block with
        | true =>
          rw [hblank, if_pos rfl] at h
          obtain ⟨n, hclean, hlen, hdecoding⟩ := ih _ hlt rest _ h rfl
          refine ⟨block.length + n, by rw [if_pos rfl, hclean, Nat.add_assoc], ?_, ?_⟩
          · rw [hsplit, List.length_append]
            omega
          · rw [htake, decoding_of_some (hframe.next _), if_pos hfits, hblank, if_pos rfl, if_pos rfl,
              hdecoding]
        | false =>
          rw [hblank, if_neg Bool.false_ne_true] at h
          rw [if_neg Bool.false_ne_true]
          cases hparse : parseFrame json block with
          | error source =>
            rw [hparse] at h
            cases h
          | ok entry =>
            rw [hparse] at h
            obtain ⟨n, hclean, hlen, hdecoding⟩ := ih _ hlt rest _ h rfl
            refine ⟨block.length + n, by simp only [hclean, Nat.add_assoc], ?_, ?_⟩
            · rw [hsplit, List.length_append]
              omega
            · rw [htake, decoding_of_some (hframe.next _), if_pos hfits, hblank,
                if_neg Bool.false_ne_true, hparse]
              simp only [hdecoding]
      · cases h

namespace Gc

structure GcReport where
  entriesBefore : Nat
  entriesAfter : Nat
  bytesBefore : Nat
  bytesAfter : Nat
deriving DecidableEq

/-- `prune_abandoned` on the bytes of a journal: opening it truncates its torn tail, and the file is
rewritten only when an entry is abandoned. -/
def pruneAbandoned (json : SerdeJson) (file : Bytes) : Except GcError (GcReport × Bytes) :=
  match Journal.open json (wholeFile file) with
  | .error e => .error (.journal e)
  | .ok (journal, entries) =>
    let retained := liveChain entries
    if entries.length = retained.length then
      .ok ({ entriesBefore := entries.length
             entriesAfter := retained.length
             bytesBefore := journal.file.length
             bytesAfter := journal.file.length }, journal.file)
    else match encodeAll json retained [] with
      | .error e => .error (.encode e)
      | .ok encoded =>
        .ok ({ entriesBefore := entries.length
               entriesAfter := retained.length
               bytesBefore := journal.file.length
               bytesAfter := encoded.length }, encoded)

theorem encodeAll_eq_foldlM (es : List Entry) (output : Bytes) :
    encodeAll json es output = es.foldlM (fun output entry => encode json entry output) output := by
  induction es generalizing output with
  | nil => rfl
  | cons e es ih =>
    rw [encodeAll, List.foldlM_cons]
    cases encode json e output with
    | error source => rfl
    | ok output => exact ih output

theorem decodeCommitted_eq_ok {reader : Reader} {decoded : Decoded} :
    decodeCommitted json reader = .ok decoded ↔
      (decoding json reader.bytes 0).result = .ok decoded.tornLen ∧
      decoded.entries = (decoding json reader.bytes 0).frames.map (·.entry) ∧
      decoded.cleanLen = (decoding json reader.bytes 0).cleanLen ∧
      validateHistory json decoded.entries = .ok () ∧
      validateGenesisVersion json decoded.entries = .ok () := by
  have hscan := (decodeCommitted_scan json reader).2
  rw [Scanner.scan_eq] at hscan
  replace hscan : decodeCommitted json reader = (do
      let decoded ← (decoding json reader.bytes 0).decoded
      validateHistory json decoded.entries
      validateGenesisVersion json decoded.entries
      return decoded) := hscan
  simp only [hscan, Except.bind_eq_ok, Decoding.decoded]
  constructor
  · rintro ⟨d, hd, ⟨⟩, hhistory, ⟨⟩, hgenesis, heq⟩
    cases Except.pure_eq_ok.1 heq
    split at hd
    · next torn hresult =>
      cases hd
      exact ⟨hresult, rfl, rfl, hhistory, hgenesis⟩
    · cases hd
  · rintro ⟨hresult, hentries, hclean, hhistory, hgenesis⟩
    refine ⟨decoded, ?_, (), hhistory, (), hgenesis, rfl⟩
    rw [hresult, ← hentries, ← hclean]

/-- Opening what is left of a file once its torn tail is gone. -/
theorem open_again {j : Journal} (h : Journal.open json (wholeFile file) = .ok (j, es)) :
    validateHistory json es = .ok () ∧ validateGenesisVersion json es = .ok () ∧
    ∃ j', Journal.open json (wholeFile j.file) = .ok (j', es) ∧ j'.file = j.file := by
  rw [Journal.open] at h
  obtain ⟨decoded, hdecoded, h⟩ := Except.bind_eq_ok.1 h
  obtain ⟨hresult, hentries, hclean, hhistory, hgenesis⟩ := decodeCommitted_eq_ok.1 hdecoded
  cases Except.pure_eq_ok.1 h
  rw [wholeFile_bytes] at hresult hentries hclean
  obtain ⟨n, hn, hlen, htake⟩ := decoding_take file 0 hresult
  rw [Nat.zero_add] at hn
  -- The bytes that remain are those up to the last commit point.
  have hfile : (if decoded.tornLen ≠ 0 then (wholeFile file).bytes.take decoded.cleanLen
      else (wholeFile file).bytes) = file.take n := by
    rw [wholeFile_bytes, hclean, hn]
    split
    · rfl
    · next htorn =>
      rw [List.take_of_length_le (by omega)]
  refine ⟨hhistory, hgenesis, ?_⟩
  rw [hfile]
  have hagain : decodeCommitted json (wholeFile (file.take n)) =
      .ok { entries := decoded.entries, cleanLen := n, tornLen := 0 } := by
    refine decodeCommitted_eq_ok.2 ?_
    rw [wholeFile_bytes, htake]
    exact ⟨rfl, hentries, hn.symm, hhistory, hgenesis⟩
  rw [Journal.open, hagain]
  exact ⟨_, rfl, by simp [wholeFile_bytes]⟩

/-- A pruned journal is pruned to itself. -/
theorem pruneAbandoned_pruned {j : Journal} (hopen : Journal.open json (wholeFile file) = .ok (j, es))
    (h : pruneAbandoned json file = .ok (report, file')) :
    pruneAbandoned json file' = .ok ({ entriesBefore := (liveChain es).length
                                       entriesAfter := (liveChain es).length
                                       bytesBefore := file'.length
                                       bytesAfter := file'.length }, file') := by
  obtain ⟨hhistory, hgenesis, j', hagain, hfile⟩ := open_again hopen
  rw [pruneAbandoned, hopen] at h
  simp only at h
  split at h
  · next hall =>
    cases h
    rw [pruneAbandoned, hagain]
    simp only [hfile, hall, if_true]
  · split at h
    · cases h
    · next encoded hencode =>
      cases h
      rw [encodeAll_eq_foldlM] at hencode
      obtain ⟨hw, rfl⟩ := foldlM_encode hencode
      have hgen : GenesisSupported json (liveChain es) := by
        rw [GenesisSupported, head?_liveChain hhistory]
        exact validateGenesisVersion_eq_ok.1 hgenesis
      have hbytes : (wholeFile ([] ++ frames (liveChain es))).bytes = frames (liveChain es) ++ [] := by
        rw [wholeFile_bytes, List.nil_append, List.append_nil]
      obtain ⟨j'', hj'', -, hinv⟩ := open_frames hw (validateHistory_liveChain hhistory)
        framing.next_nil (Nat.zero_le _) hbytes hgen
      have hlive := congrArg List.length (liveChain_liveChain hhistory)
      have hfile'' : j''.file = [] ++ frames (liveChain es) := by
        rw [hinv.file, List.append_nil, List.nil_append]
      rw [pruneAbandoned, hj'']
      simp only [hlive, hfile'', if_true]

end Gc

/-! ## Branch structure -/

/-- In a validated history the live chain runs from the genesis to the tail along the parent links,
at increasing positions; live and abandoned entries partition the file; the live entries alone are a
valid history with no abandoned entry, so a second pruning changes nothing; and the session's walk
from the tail finds the same positions. -/
theorem liveChain_structure (h : validateHistory json es = .ok ()) :
    (chainIndices es).Pairwise (· < ·) ∧
    (es ≠ [] → (chainIndices es).head? = some 0 ∧
      (chainIndices es).getLast? = some (es.length - 1)) ∧
    (chainIndices es).IsChain (fun p i => parentIndex es i = some p) ∧
    (liveChain es ++ abandoned es).Perm es ∧
    (∀ e ∈ es, e ∈ liveChain es ↔ e ∉ abandoned es) ∧
    validateHistory json (liveChain es) = .ok () ∧
    liveChain (liveChain es) = liveChain es ∧ abandoned (liveChain es) = [] ∧
    (∀ file j report file', Journal.open json (Gc.wholeFile file) = .ok (j, es) →
      Gc.pruneAbandoned json file = .ok (report, file') →
      Gc.pruneAbandoned json file' = .ok ({ entriesBefore := (liveChain es).length
                                            entriesAfter := (liveChain es).length
                                            bytesBefore := file'.length
                                            bytesAfter := file'.length }, file')) ∧
    ∀ tail ∈ es.getLast?, Session.chainIndices es tail.id = .ok (chainIndices es) := by
  have hperm := liveChain_append_abandoned h
  have hnodup := hperm.nodup_iff.2 (nodup_of_validateHistory h)
  refine ⟨chainIndices_pairwise h, fun hne => ⟨chainIndices_head h hne,
    (lineage_chainIndices h hne).getLast?⟩, ?_, hperm, fun e he => ⟨fun hlive hgone => ?_,
    fun hgone => ?_⟩, validateHistory_liveChain h, liveChain_liveChain h, ?_,
    fun _ _ _ _ hopen hprune => Gc.pruneAbandoned_pruned hopen hprune, ?_⟩
  · by_cases hne : es = []
    · subst hne
      exact .nil
    · exact (lineage_chainIndices h hne).isChain
  · exact List.disjoint_of_nodup_append hnodup hlive hgone
  · exact (List.mem_append.1 (hperm.mem_iff.2 he)).resolve_right hgone
  · have hlength := (liveChain_append_abandoned (validateHistory_liveChain h)).length_eq
    rw [liveChain_liveChain h, List.length_append] at hlength
    exact List.length_eq_zero_iff.1 (by omega)
  · intro tail htail
    rw [Option.mem_def, List.getLast?_eq_getElem?] at htail
    obtain ⟨hlt, -⟩ := List.getElem?_eq_some_iff.1 htail
    obtain ⟨q, hq⟩ := byId_isSome htail
    obtain ⟨e, he, hid⟩ := byId_eq_some hq
    cases validateHistory_inj h he htail hid
    have hne : es ≠ [] := List.length_pos_iff.1 (by omega)
    rw [Session.chainIndices, hq]
    exact Session.chainFrom_eq h (lineage_chainIndices h hne) hlt hlt

theorem liveChain_structure_branch :
    chainIndices Gc.branch = [0, 2] ∧ (abandoned Gc.branch).length = 1 ∧
      liveChain (liveChain Gc.branch) = liveChain Gc.branch ∧
      Session.chainIndices Gc.branch ⟨2, by decide⟩ = .ok [0, 2] := by
  have hvalid : validateHistory Gc.branchJson Gc.branch = .ok () := rfl
  obtain ⟨-, -, -, -, -, -, hlive, -, -, hsession⟩ := liveChain_structure hvalid
  exact ⟨rfl, rfl, hlive, hsession _ rfl⟩

/-- The writer's bookkeeping is that of the entries. -/
theorem Journal.bookkeeping_of_open {j : Journal} {reader : Reader} (h : Journal.open json reader = .ok (j, es)) :
    j.ids = es.map (·.id) ∧ j.generator = .seeded ((es.map (·.id)).foldl raiseFloor none) ∧
      j.entryCount = es.length := by
  rw [Journal.open] at h
  obtain ⟨decoded, -, h⟩ := Except.bind_eq_ok.1 h
  cases Except.pure_eq_ok.1 h
  exact ⟨rfl, rfl, rfl⟩

/-- Recovery is idempotent: whatever bytes a journal is opened from, the file it leaves opens to the same entries
and the same writer, and is left as it is. -/
theorem open_idempotent {file : Bytes} {j : Journal} (h : Journal.open json (Gc.wholeFile file) = .ok (j, es)) :
    ∃ j', Journal.open json (Gc.wholeFile j.file) = .ok (j', es) ∧ j'.file = j.file ∧ j'.ids = j.ids ∧
      j'.generator = j.generator ∧ j'.entryCount = j.entryCount := by
  obtain ⟨-, -, j', hagain, hfile⟩ := Gc.open_again h
  obtain ⟨hids, hgenerator, hcount⟩ := Journal.bookkeeping_of_open h
  obtain ⟨hids', hgenerator', hcount'⟩ := Journal.bookkeeping_of_open hagain
  exact ⟨j', hagain, hfile, hids'.trans hids.symm, hgenerator'.trans hgenerator.symm, hcount'.trans hcount.symm⟩

theorem open_idempotent_torn : ∃ j es j', Journal.open sampleJson (Gc.wholeFile
      ((frameBytes (sampleGenesis "\x7b\"version\":1\x7d")).take 40)) = .ok (j, es) ∧
    Journal.open sampleJson (Gc.wholeFile j.file) = .ok (j', es) := by
  have happend : Journal.create.append sampleJson sampleTick .ok (genesisDraft "\x7b\"version\":1\x7d") =
      (.ok (sampleGenesis "\x7b\"version\":1\x7d"), _) := rfl
  have hgen : GenesisSupported sampleJson
      (committedBefore ([] ++ [sampleGenesis "\x7b\"version\":1\x7d"]) 40) := validateGenesisVersion_eq_ok.1 rfl
  obtain ⟨j, hopen, -⟩ := (Journal.History.append .create happend).inv.reopen (Gc.wholeFile_bytes _) hgen
  obtain ⟨j', hagain, -⟩ := open_idempotent hopen
  exact ⟨j, _, j', hopen, hagain⟩

end OhMyPi
