import OhMyPi.Terminal.Frames

/-! Decoding does not depend on how the bytes arrive. The decoder holds exactly what does not make a token
yet; so as long as nothing times out and no size cap is met, its events are those of the tokens of the whole
stream. -/

namespace OhMyPi.Terminal

open InputDecoder (findPasteEnd isEscBeforeMouse)

/-! ## Events of tokens -/

section

variable {Bound : Type} (host : Host Bound)

/-- The events of a frame, given the character that a Kitty report has just given. -/
def quietEmit (pending : Option Nat) (decoded : Decoded) : Option Nat × List (InputEvent Bound) :=
  let (decoder, events) :=
    ({ pendingKittyPrint := pending.map (·, 0) } : InputDecoder).emit host decoded 0
  (decoder.pendingKittyPrint.map Prod.fst, events)

/-- A paste is one event. -/
def Item.emit (pending : Option Nat) : Item → Option Nat × List (InputEvent Bound)
  | .frame bytes => quietEmit host pending (decodeFrame bytes)
  | .paste _ content => (none, [.paste (host.pasteText content)])

def emitItems (pending : Option Nat) : List Item → Option Nat × List (InputEvent Bound)
  | [] => (pending, [])
  | item :: rest =>
    let (pending, events) := item.emit host pending
    let (pending, events') := emitItems pending rest
    (pending, events ++ events')

theorem emitItems_append (pending : Option Nat) (before after : List Item) :
    emitItems host pending (before ++ after) =
      ((emitItems host (emitItems host pending before).1 after).1,
        (emitItems host pending before).2 ++ (emitItems host (emitItems host pending before).1 after).2) := by
  induction before generalizing pending with
  | nil => rfl
  | cons item before ih =>
    simp only [List.cons_append, emitItems, ih, List.append_assoc]

/-- The last Kitty report is recent. -/
def Fresh (decoder : InputDecoder) (now : Nat) : Prop :=
  ∀ pending, decoder.pendingKittyPrint = some pending → now - pending.2 ≤ kittyDedupTimeout

theorem emit_eq {decoder : InputDecoder} {now : Nat} (h : Fresh decoder now) (decoded : Decoded) :
    ∃ kitty pending, decoder.emit host decoded now =
        ({ decoder with kittyKeyboardActive := kitty, pendingKittyPrint := pending },
          (quietEmit host (decoder.pendingKittyPrint.map Prod.fst) decoded).2) ∧
      pending.map Prod.fst = (quietEmit host (decoder.pendingKittyPrint.map Prod.fst) decoded).1 ∧
      ∀ print, pending = some print → now - print.2 ≤ kittyDedupTimeout := by
  have hrecent : ∀ print : Nat × Nat, print.2 = now → now - print.2 ≤ kittyDedupTimeout := by
    rintro print rfl
    rw [Nat.sub_self]
    exact Nat.zero_le _
  have hmap : ∀ dedup : Option Nat, ∀ print, dedup.map (·, now) = some print →
      now - print.2 ≤ kittyDedupTimeout := by
    intro dedup print hprint
    obtain ⟨codepoint, -, rfl⟩ := Option.map_eq_some_iff.1 hprint
    exact hrecent _ rfl
  cases decoded with
  | mouse report => exact ⟨_, _, rfl, rfl, nofun⟩
  | focus gained => exact ⟨_, _, rfl, rfl, nofun⟩
  | response response =>
    cases response <;> exact ⟨_, _, rfl, rfl, nofun⟩
  | chord chord => exact ⟨_, _, rfl, rfl, nofun⟩
  | release chord => exact ⟨_, _, rfl, by simp [quietEmit, InputDecoder.emit, Function.comp_def], h⟩
  | bareChord chord =>
    have hrepeat : decoder.isRepeat chord now = InputDecoder.isRepeat
        { pendingKittyPrint := (decoder.pendingKittyPrint.map Prod.fst).map (·, 0) } chord 0 := by
      rw [InputDecoder.isRepeat, InputDecoder.isRepeat]
      cases hpending : decoder.pendingKittyPrint with
      | none => rfl
      | some pending => simp [Nat.sub_le_iff_le_add.1 (h pending hpending)]
    refine ⟨decoder.kittyKeyboardActive, none, ?_, ?_, nofun⟩
    · simp only [InputDecoder.emit, quietEmit, hrepeat]
      split <;> rfl
    · simp only [InputDecoder.emit, quietEmit]
      split <;> rfl
  | kittyChord chord =>
    refine ⟨_, _, rfl, ?_, hmap _⟩
    simp [quietEmit, InputDecoder.emit, Function.comp_def]
  | kittyText chords dedup =>
    refine ⟨_, _, rfl, ?_, hmap _⟩
    simp [quietEmit, InputDecoder.emit, Function.comp_def]
  | pasteStart => exact ⟨_, _, rfl, by simp [quietEmit, InputDecoder.emit, Function.comp_def], h⟩
  | none => exact ⟨_, _, rfl, by simp [quietEmit, InputDecoder.emit, Function.comp_def], h⟩

/-! ## The decoder -/

/-- The paste that the bytes begin, of which the end marker is not there yet. -/
structure Opens (rest content : Bytes) : Prop where
  ne_nil : rest ≠ []
  esc : isEscBeforeMouse rest = false
  start : ∃ length, resolveFrame rest = .complete length ∧ decodeFrame (rest.take length) = .pasteStart ∧
    rest.drop length = content
  noEnd : findPasteEnd content = none

/-- The decoder has emitted all tokens and waits with the rest. -/
structure Waits (decoder : InputDecoder) (pending : Option Nat) (rest : Bytes) : Prop where
  print : decoder.pendingKittyPrint.map Prod.fst = pending
  csi : decoder.privateCsiPartial = []
  discard : decoder.stringDiscard = none
  holds : decoder.pasteActive = false ∧ decoder.buffer = rest ∨
    decoder.pasteActive = true ∧ decoder.buffer = [] ∧ decoder.pasteScanFrom = decoder.paste.length ∧
      Opens rest decoder.paste

/-- The decoder is between pastes. -/
structure Idle (decoder : InputDecoder) (now : Nat) : Prop where
  paste : decoder.pasteActive = false
  csi : decoder.privateCsiPartial = []
  discard : decoder.stringDiscard = none
  fresh : Fresh decoder now

/-- The tokens of the bytes are emitted and the decoder waits with the rest. -/
def Emits (now : Nat) (pending : Option Nat) (bytes : Bytes)
    (result : InputDecoder × List (InputEvent Bound)) : Prop :=
  result.2 = (emitItems host pending (items.split bytes).1).2 ∧
    Waits result.1 (emitItems host pending (items.split bytes).1).1 (items.split bytes).2 ∧ Fresh result.1 now

theorem Emits.cons {now : Nat} {pending : Option Nat} {bytes rest : Bytes} {item : Item}
    {result : InputDecoder × List (InputEvent Bound)} (hnext : nextItem bytes = some (item, rest))
    (h : Emits host now (item.emit host pending).1 rest result) :
    Emits host now pending bytes (result.1, (item.emit host pending).2 ++ result.2) := by
  have hsplit := @Tokenizer.split_of_some _ _ items _ _ _ hnext
  obtain ⟨hevents, hwaits, hfresh⟩ := h
  rw [Emits, hsplit]
  exact ⟨congrArg _ hevents, hwaits, hfresh⟩

/-- `process_paste` on a paste that `bytes` begin, when it starts to search early enough. -/
theorem processPaste_spec {decoder : InputDecoder} {now length : Nat} {bytes : Bytes}
    {processBuffer : InputDecoder → InputDecoder × List (InputEvent Bound)}
    (hne : bytes ≠ []) (hesc : isEscBeforeMouse bytes = false) (hlength : resolveFrame bytes = .complete length)
    (hstart : decodeFrame (bytes.take length) = .pasteStart) (hcontent : bytes.drop length = decoder.paste)
    (hactive : decoder.pasteActive = true) (hbuffer : decoder.buffer = [])
    (hcsi : decoder.privateCsiPartial = []) (hdiscard : decoder.stringDiscard = none) (hfresh : Fresh decoder now)
    (hscan : (findPasteEnd (decoder.paste.drop (decoder.pasteScanFrom - (pasteEnd.length - 1)))).map
      (decoder.pasteScanFrom - (pasteEnd.length - 1) + ·) = findPasteEnd decoder.paste)
    (hcaps : UnderCaps bytes)
    (hprocess : ∀ next : InputDecoder, Idle next now → next.buffer.length < decoder.paste.length →
      UnderCaps next.buffer →
      Emits host now (next.pendingKittyPrint.map Prod.fst) next.buffer (processBuffer next)) :
    Emits host now (decoder.pendingKittyPrint.map Prod.fst) bytes
        (InputDecoder.processPaste host processBuffer decoder) ∧
      ((InputDecoder.processPaste host processBuffer decoder).1.pasteActive = true ∨
        (items.split bytes).2.length < bytes.length) := by
  simp only [InputDecoder.processPaste]
  rw [hscan]
  cases hfind : findPasteEnd decoder.paste with
  | none =>
    rw [← hcontent] at hfind
    have hnone : nextItem bytes = none := by
      simp [nextItem, hne, hesc, hlength, hstart, hfind]
    have hsplit := @Tokenizer.split_of_none _ _ items _ hnone
    have hfits := hcaps.unfinished length (by rw [hsplit]; exact hlength)
    rw [hsplit, hcontent] at hfits
    rw [Emits, hsplit]
    simp only [if_neg (not_lt.2 hfits)]
    refine ⟨⟨rfl, ⟨rfl, hcsi, hdiscard, .inr ⟨hactive, hbuffer, rfl, hne, hesc,
      ⟨length, hlength, hstart, hcontent⟩, ?_⟩⟩, hfresh⟩, .inl hactive⟩
    rw [← hcontent]
    exact hfind
  | some index =>
    have hindex := lt_length_of_pasteEnd (findPasteEnd_eq_some.1 hfind).1
    have hpos : 0 < pasteEnd.length := Nat.succ_pos _
    rw [← hcontent] at hfind
    have hnext := nextItem_eq_some.2 (.paste length index hne hesc hlength hstart hfind)
    rw [hcontent] at hnext
    simp only [InputDecoder.finishPaste]
    constructor
    · refine Emits.cons host hnext (hprocess _ ⟨rfl, hcsi, hdiscard, ?_⟩ ?_ (hcaps.tail hnext))
      · intro pending h
        cases h
      · simp only [List.length_drop]
        omega
    · right
      rw [@Tokenizer.split_of_some _ _ items _ _ _ hnext]
      exact (items.length_split_le _).trans_lt (@Tokenizer.length_lt_of_next _ _ items _ _ _ hnext)

theorem UnderCaps.rest {stream : Bytes} (h : UnderCaps stream) : UnderCaps (items.split stream).2 := by
  have hsplit := @Tokenizer.split_of_none _ _ items _ (items.next_split stream)
  refine ⟨?_, ?_, ?_⟩
  · rw [hsplit]
    exact fun _ _ hmem => absurd hmem List.not_mem_nil
  · rw [hsplit]
    exact h.sequences
  · rw [hsplit]
    exact h.unfinished

/-- A further round of `process_buffer` does nothing. -/
theorem Emits.settle {now fuel : Nat} {pending : Option Nat} {bytes : Bytes}
    {result : InputDecoder × List (InputEvent Bound)}
    (hprocess : ∀ {decoder : InputDecoder}, Idle decoder now → decoder.buffer.length < fuel →
      UnderCaps decoder.buffer → Emits host now (decoder.pendingKittyPrint.map Prod.fst) decoder.buffer
        (InputDecoder.processBuffer host now fuel decoder))
    (hcaps : UnderCaps bytes) (h : Emits host now pending bytes result)
    (hfuel : result.1.pasteActive = true ∨ (items.split bytes).2.length < fuel) :
    Emits host now pending bytes
      (if result.1.pasteActive = true then result
      else
        ((InputDecoder.processBuffer host now fuel result.1).1,
          result.2 ++ (InputDecoder.processBuffer host now fuel result.1).2)) := by
  split
  · exact h
  · next hpaste =>
    obtain ⟨hevents, hwaits, hfresh⟩ := h
    have hpaste := Bool.eq_false_iff.2 hpaste
    obtain ⟨-, hbuffer⟩ := hwaits.holds.resolve_right fun hactive => by
      rw [hpaste] at hactive
      cases hactive.1
    have hfuel := hfuel.resolve_left (Bool.eq_false_iff.1 hpaste)
    have hagain := hprocess ⟨hpaste, hwaits.csi, hwaits.discard, hfresh⟩ (hbuffer ▸ hfuel) (hbuffer ▸ hcaps.rest)
    have hsplit := @Tokenizer.split_of_none _ _ items _ (items.next_split bytes)
    rw [hbuffer, Emits, hsplit, hwaits.print] at hagain
    obtain ⟨hevents', hwaits', hfresh'⟩ := hagain
    refine ⟨?_, hwaits', hfresh'⟩
    rw [hevents', hevents]
    exact List.append_nil _

/-- `process_buffer` emits the tokens of the buffer. -/
theorem processBuffer_spec {now fuel : Nat} {decoder : InputDecoder} (hidle : Idle decoder now)
    (hfuel : decoder.buffer.length < fuel) (hcaps : UnderCaps decoder.buffer) :
    Emits host now (decoder.pendingKittyPrint.map Prod.fst) decoder.buffer
      (InputDecoder.processBuffer host now fuel decoder) := by
  induction fuel generalizing decoder with
  | zero => exact absurd hfuel (Nat.not_lt_zero _)
  | succ fuel ih =>
    rw [InputDecoder.processBuffer]
    split
    · next hempty =>
      have hnil : decoder.buffer = [] := by simpa using hempty
      have hsplit := @Tokenizer.split_of_none _ _ items [] rfl
      rw [hnil, Emits, hsplit]
      exact ⟨rfl, ⟨rfl, hidle.csi, hidle.discard, .inl ⟨hidle.paste, rfl⟩⟩, hidle.fresh⟩
    · next hempty =>
      have hne : decoder.buffer ≠ [] := by simpa using hempty
      have hpos := List.length_pos_iff.2 hne
      split
      · next hesc =>
        -- The escape is a token of its own.
        have hnext := nextItem_eq_some.2 (.esc hesc)
        refine Emits.cons host hnext (ih ⟨hidle.paste, hidle.csi, hidle.discard, nofun⟩ ?_ (hcaps.tail hnext))
        simp only [List.length_drop]
        omega
      · next hesc =>
        have hesc : isEscBeforeMouse decoder.buffer = false := Bool.eq_false_iff.2 hesc
        split
        · next hincomplete =>
          have hnone : nextItem decoder.buffer = none := by
            simp [nextItem, hne, hesc, hincomplete]
          have hsplit := @Tokenizer.split_of_none _ _ items _ hnone
          rw [Emits, hsplit]
          exact ⟨rfl, ⟨rfl, hidle.csi, hidle.discard, .inl ⟨hidle.paste, rfl⟩⟩, hidle.fresh⟩
        · next length hover =>
          have hnone : nextItem decoder.buffer = none := by
            simp [nextItem, hne, hesc, hover]
          have hsplit := @Tokenizer.split_of_none _ _ items _ hnone
          exact absurd hover (by simpa [hsplit] using hcaps.sequences length)
        · next length hlength =>
          obtain ⟨hlow, hle, -⟩ := (final_resolveFrame hne).1 length hlength
          have hshort : (decoder.buffer.drop length).length < fuel := by
            rw [List.length_drop]
            omega
          by_cases hstart : decodeFrame (decoder.buffer.take length) = .pasteStart
          · simp only [hstart, if_true]
            obtain ⟨hemits, hrest⟩ := @processPaste_spec _ host
              { decoder with
                buffer := [], incompleteSince := none, pasteActive := true, pasteLastInput := some now,
                pasteScanFrom := 0, paste := decoder.buffer.drop length }
              now length decoder.buffer _ hne hesc hlength hstart rfl rfl rfl hidle.csi hidle.discard
              hidle.fresh (by simp) hcaps
              fun next hnext hlen => ih hnext (hlen.trans hshort)
            exact Emits.settle host ih hcaps hemits (hrest.imp_right fun hlt => by omega)
          · have hnext := nextItem_eq_some.2 (.frame length hne hesc hlength hstart)
            obtain ⟨kitty, pending, hemit, hpending, hfresh⟩ := @emit_eq _ host
              { decoder with buffer := decoder.buffer.drop length, incompleteSince := none } now
              hidle.fresh (decodeFrame (decoder.buffer.take length))
            simp only [hstart, if_false, hemit]
            refine Emits.cons host hnext ?_
            rw [Item.emit, ← hpending]
            exact ih ⟨hidle.paste, hidle.csi, hidle.discard, hfresh⟩ hshort (hcaps.tail hnext)

/-- No timeout has passed when a chunk arrives. -/
structure InTime (decoder : InputDecoder) (now : Nat) : Prop where
  held : ∀ since, decoder.incompleteSince = some since → now - since < decoder.holdTimeout
  paste : ∀ last, decoder.pasteLastInput = some last → now - last < pasteInactivityTimeout
  print : Fresh decoder now

/-- A chunk is read on from where the decoder waits. -/
theorem feed_spec {decoder : InputDecoder} {now : Nat} {pending : Option Nat} {rest bytes : Bytes}
    (hwaits : Waits decoder pending rest) (hnone : nextItem rest = none) (htime : InTime decoder now)
    (hcaps : UnderCaps (rest ++ bytes)) :
    Emits host now pending (rest ++ bytes) (decoder.feed host bytes now) := by
  have hpaste : decoder.expirePaste host now = (decoder, []) := by
    refine if_neg fun hexpired => ?_
    obtain ⟨-, last, hlast, hle⟩ := by simpa [Option.any_eq_true] using hexpired
    exact absurd (htime.paste last hlast) (by omega)
  have hpartial : decoder.expirePartial host now = (decoder, []) := by
    rw [InputDecoder.expirePartial]
    cases hsince : decoder.incompleteSince with
    | none => rfl
    | some since => exact if_pos (htime.held since hsince)
  have hdiscard : decoder.expireStringDiscard now = decoder := by
    rw [InputDecoder.expireStringDiscard, hwaits.discard]
    rfl
  have hconsume : decoder.consumeStringDiscard bytes now = (decoder, bytes) := by
    rw [InputDecoder.consumeStringDiscard, hwaits.discard]
  have hreassemble : (decoder.reassemblePrivateCsi bytes : _ × List (InputEvent Bound) × _) =
      (decoder, [], bytes) := if_pos hwaits.csi
  simp only [InputDecoder.feed, hpaste, hpartial, hdiscard, hconsume, hreassemble, List.append_nil,
    List.nil_append]
  split
  · next hempty =>
    have hnil : bytes = [] := by simpa using hempty
    rw [hnil, List.append_nil, Emits, @Tokenizer.split_of_none _ _ items _ hnone]
    exact ⟨rfl, hwaits, htime.print⟩
  · rw [InputDecoder.processBytes]
    rcases hwaits.holds with ⟨hactive, hbuffer⟩ | ⟨hactive, hbuffer, hscan, hopens⟩
    · rw [if_neg (Bool.eq_false_iff.1 hactive), ← hwaits.print]
      rw [← hbuffer] at hcaps ⊢
      exact @processBuffer_spec _ host now _ { decoder with buffer := decoder.buffer ++ bytes }
        ⟨hactive, hwaits.csi, hwaits.discard, htime.print⟩ (Nat.lt_succ_self _) hcaps
    · obtain ⟨length, hlength, hstart, hcontent⟩ := hopens.start
      obtain ⟨-, hle, hlength'⟩ := (final_resolveFrame hopens.ne_nil).1 length hlength
      rw [if_pos hactive, ← hwaits.print]
      refine (@processPaste_spec _ host
        { decoder with paste := decoder.paste ++ bytes, pasteLastInput := some now } now length (rest ++ bytes) _
        (List.append_ne_nil_of_left_ne_nil hopens.ne_nil bytes)
        (isEscBeforeMouse_append hopens.ne_nil (by rw [hlength]; nofun) hopens.esc bytes) (hlength' bytes) ?_ ?_
        hactive hbuffer hwaits.csi hwaits.discard htime.print ?_ hcaps
        fun next hidle hlen => processBuffer_spec host hidle (hlen.trans (Nat.lt_succ_self _))).1
      · rwa [List.take_append_of_le_length hle]
      · rw [List.drop_append_of_le_length hle, hcontent]
      · simp only [hscan]
        exact findPasteEnd_resume hopens.noEnd bytes

/-- Every chunk of a run arrives in time. -/
def RunInTime (decoder : InputDecoder) : List (Bytes × Nat) → Prop
  | [] => True
  | (bytes, now) :: feeds => InTime decoder now ∧ RunInTime (decoder.feed host bytes now).1 feeds

theorem UnderCaps.resume {stream more : Bytes} (h : UnderCaps (stream ++ more)) :
    UnderCaps ((items.split stream).2 ++ more) := by
  obtain ⟨hpastes, hsequences, hunfinished⟩ := h
  rw [items.split_append] at hpastes hsequences hunfinished
  exact ⟨fun start content hmem => hpastes start content (List.mem_append_right _ hmem), hsequences,
    hunfinished⟩

theorem run_spec {decoder : InputDecoder} {feeds : List (Bytes × Nat)} {pending : Option Nat} {rest : Bytes}
    (hwaits : Waits decoder pending rest) (hnone : nextItem rest = none)
    (htime : RunInTime host decoder feeds) (hcaps : UnderCaps (rest ++ feeds.flatMap Prod.fst)) :
    (decoder.run host feeds).2 = (emitItems host pending (items.split (rest ++ feeds.flatMap Prod.fst)).1).2 ∧
      Waits (decoder.run host feeds).1 (emitItems host pending (items.split (rest ++ feeds.flatMap Prod.fst)).1).1
        (items.split (rest ++ feeds.flatMap Prod.fst)).2 := by
  induction feeds generalizing decoder pending rest with
  | nil =>
    rw [List.flatMap_nil, List.append_nil, @Tokenizer.split_of_none _ _ items _ hnone]
    exact ⟨rfl, hwaits⟩
  | cons chunk feeds ih =>
    obtain ⟨bytes, now⟩ := chunk
    rw [List.flatMap_cons, ← List.append_assoc] at hcaps ⊢
    dsimp only at hcaps ⊢
    obtain ⟨hevents, hwaits', -⟩ := feed_spec host hwaits hnone htime.1 hcaps.of_append
    obtain ⟨hrest, hwaits''⟩ := ih hwaits' (items.next_split _) htime.2 hcaps.resume
    rw [items.split_append, emitItems_append]
    refine ⟨?_, hwaits''⟩
    simp only [InputDecoder.run]
    rw [hevents, hrest]

/-! ## Chunks do not matter -/

def InputEvent.isKey : InputEvent Bound → Bool
  | .key _ | .chord _ _ _ => true
  | _ => false

/-- A paste whose content is forgotten. -/
def Item.emptied : Item → Item
  | .frame bytes => .frame bytes
  | .paste start _ => .paste start []

/-- Keys come from frames alone. -/
theorem keys_emptied (pending : Option Nat) (tokens : List Item) :
    (emitItems host pending (tokens.map Item.emptied)).2.filter InputEvent.isKey =
      (emitItems host pending tokens).2.filter InputEvent.isKey := by
  induction tokens generalizing pending with
  | nil => rfl
  | cons item tokens ih =>
    rw [List.map_cons, emitItems, emitItems]
    simp only [List.filter_append]
    cases item with
    | frame bytes =>
      rw [Item.emptied]
      exact congrArg _ (ih _)
    | paste start content =>
      rw [Item.emptied]
      exact ih none

/-- The bytes that a decoder holds back. -/
structure Holds (decoder : InputDecoder) (rest : Bytes) : Prop where
  none : nextItem rest = none
  held : decoder.buffer = rest ∨ ∃ start, rest = start ++ decoder.paste ∧ decodeFrame start = .pasteStart

theorem Waits.toHolds {decoder : InputDecoder} {pending : Option Nat} {rest : Bytes}
    (h : Waits decoder pending rest) (hnone : nextItem rest = none) : Holds decoder rest := by
  refine ⟨hnone, h.holds.imp (fun hidle => hidle.2) fun hpasting => ?_⟩
  obtain ⟨length, -, hstart, hcontent⟩ := hpasting.2.2.2.start
  exact ⟨rest.take length, by rw [← hcontent, List.take_append_drop], hstart⟩

end

/-- Chords are their own keys. -/
def plainHost : Host Chord := ⟨false, some, fun _ => []⟩

/-- Arrow up, in two chunks and in one. -/
def upSplit : List (Bytes × Nat) := [([0x1b], 0), (ascii "[A", 10)]

def upWhole : List (Bytes × Nat) := [(0x1b :: ascii "[A", 0)]

theorem underCaps_up : UnderCaps (upSplit.flatMap Prod.fst) := by
  have hsplit : items.split (upSplit.flatMap Prod.fst) = ([.frame (0x1b :: ascii "[A")], []) := by
    rw [@Tokenizer.split_of_some _ _ items _ (.frame (0x1b :: ascii "[A")) [] rfl,
      @Tokenizer.split_of_none _ _ items [] rfl]
  refine ⟨fun start content hmem => ?_, fun length hover => ?_, fun length hcomplete => ?_⟩
  · rw [hsplit] at hmem
    cases List.mem_singleton.1 hmem
  · rw [hsplit] at hover
    cases hover
  · rw [hsplit] at hcomplete
    cases hcomplete

end OhMyPi.Terminal
