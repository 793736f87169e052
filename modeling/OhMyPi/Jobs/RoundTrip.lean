import OhMyPi.Dom.History
import OhMyPi.Jobs.Output

/-! Settling a job and resolving its output gives the output back, exactly when the output does not look
like the record of a spilled one. -/

namespace OhMyPi.Jobs

open Text

/-! ## Addresses -/

/-- The digit of a half byte reads back. -/
theorem hexDigit_spec : ∀ n : Fin 16, ∃ b : UInt8,
    String.utf8EncodeChar ("0123456789abcdef".toList.getD n '0') = [b] ∧
      Hash32.isLowerHex b = true ∧ Hash32.nibble b = UInt8.ofNat n := by
  intro n
  have hall : ∀ n : Fin 16,
      String.utf8EncodeChar ("0123456789abcdef".toList.getD n '0') =
        [(String.utf8EncodeChar ("0123456789abcdef".toList.getD n '0')).headD 0] ∧
      Hash32.isLowerHex ((String.utf8EncodeChar ("0123456789abcdef".toList.getD n '0')).headD 0) =
        true ∧
      Hash32.nibble ((String.utf8EncodeChar ("0123456789abcdef".toList.getD n '0')).headD 0) =
        UInt8.ofNat n := by
    decide
  exact ⟨_, hall n⟩

theorem halves (b : UInt8) : UInt8.ofNat (b.toNat / 16) * 16 + UInt8.ofNat (b.toNat % 16) = b := by
  have hb := b.toNat_lt
  apply UInt8.toNat_inj.1
  rw [UInt8.toNat_add, UInt8.toNat_mul, UInt8.toNat_ofNat', UInt8.toNat_ofNat']
  have hsixteen : (16 : UInt8).toNat = 16 := rfl
  rw [hsixteen]
  omega

theorem decodePairs_toHex (data : Bytes) :
    let digits := "0123456789abcdef".toList
    let hex := (data.flatMap fun b =>
      [digits.getD (b.toNat / 16) '0', digits.getD (b.toNat % 16) '0']).flatMap String.utf8EncodeChar
    Hash32.decodePairs hex = data ∧ hex.all Hash32.isLowerHex = true ∧ hex.length = 2 * data.length := by
  induction data with
  | nil => exact ⟨rfl, rfl, rfl⟩
  | cons b data ih =>
    obtain ⟨hdecode, hall, hlength⟩ := ih
    have hb := b.toNat_lt
    obtain ⟨hi, hhi, hihex, hinibble⟩ := hexDigit_spec ⟨b.toNat / 16, by omega⟩
    obtain ⟨lo, hlo, lohex, lonibble⟩ := hexDigit_spec ⟨b.toNat % 16, by omega⟩
    simp only at hhi hlo hinibble lonibble
    simp only [List.flatMap_cons, List.flatMap_append, List.flatMap_nil, List.append_nil, hhi, hlo,
      List.cons_append, List.nil_append, Hash32.decodePairs, List.all_cons, List.length_cons]
    refine ⟨?_, ?_, ?_⟩
    · rw [hinibble, lonibble, halves]
      exact congrArg _ hdecode
    · rw [hihex, lohex]
      exact hall
    · rw [hlength]
      omega

theorem fromStr_toHex (hash : Hash32) : Hash32.fromStr (bytes hash.toHex) = some hash := by
  obtain ⟨hdecode, hall, hlength⟩ := decodePairs_toHex hash.bytes
  rw [hash.length_eq] at hlength
  rw [Hash32.toHex, bytes_ofList, Hash32.fromStr, dif_pos hlength, if_pos hall]
  simp only [Option.some.injEq]
  cases hash
  simpa only [Hash32.mk.injEq] using hdecode

theorem stripAddress_append (hex : String) : stripAddress (artifactPrefix ++ hex) = some hex := by
  rw [stripAddress, String.toList_append, if_pos, List.drop_left, String.ofList_toList]
  exact List.isPrefixOf_iff_prefix.2 (List.prefix_append _ _)

/-! ## Properties -/

section

variable {dom : Dom} {handle : Handle}

theorem get_applyOp_set (key : PropKey) (value : Value) :
    (dom.applyOp (.set handle key value)).get handle = (dom.get handle).map (·.setProp key value) :=
  Function.update_self ..

theorem prop_applyOp_set (key key' : PropKey) (value : Value) :
    (dom.applyOp (.set handle key value)).prop handle key' =
      if key' = key then (dom.get handle).map fun _ => value else dom.prop handle key' := by
  rw [Dom.prop, get_applyOp_set, Dom.prop]
  cases dom.get handle with
  | none => split <;> rfl
  | some node =>
    rw [Option.map_some, Option.bind_some, Node.prop, Node.setProp, KeyedList.first_assign]
    split <;> rfl

/-- Leaves the data of the node alone: it sets another property, or inserts a node. -/
inductive Aside (handle : Handle) : Op → Prop
  | set {key : PropKey} (value : Value) (hkey : key ≠ .known .data) : Aside handle (.set handle key value)
  | ins (parent : Handle) (after : Option Handle) (spec : NodeSpec) : Aside handle (.ins parent after spec)

theorem applyOp_aside {op : Op} (h : Aside handle op) (hle : handle ≤ dom.highWater) :
    (dom.applyOp op).prop handle (.known .data) = dom.prop handle (.known .data) ∧
      handle ≤ (dom.applyOp op).highWater := by
  cases h with
  | set value hkey => exact ⟨by rw [prop_applyOp_set, if_neg hkey.symm], hle⟩
  | ins parent after spec =>
    have hfresh : handle ≠ dom.highWater + 1 := Nat.ne_of_lt (Nat.lt_succ_of_le hle)
    refine ⟨?_, Nat.le_succ_of_le hle⟩
    simp only [Dom.prop, Dom.get, Dom.applyOp, Dom.modifyNode, Function.update_apply, if_neg hfresh]
    split
    · next heq =>
      rw [← heq, if_neg hfresh, Option.bind_map]
      rfl
    · rfl

theorem applyOps_aside {ops : List Op} (h : ∀ op ∈ ops, Aside handle op) (hle : handle ≤ dom.highWater) :
    (dom.applyOps ops).prop handle (.known .data) = dom.prop handle (.known .data) := by
  induction ops generalizing dom with
  | nil => rfl
  | cons op ops ih =>
    obtain ⟨hop, hrest⟩ := List.forall_mem_cons.1 h
    obtain ⟨hprop, hnext⟩ := applyOp_aside hop hle
    rw [Dom.applyOps, List.foldl_cons, ← Dom.applyOps, ih hrest hnext, hprop]

theorem get_of_apply {txn : Txn} {dom' : Dom} {minted : List Handle} {key : PropKey} {value : Value}
    {ops : List Op} (hops : txn.ops = .set handle key value :: ops)
    (h : dom.apply txn = .ok (dom', minted)) : (dom.get handle).isSome = true ∧
      dom' = dom.applyOps txn.ops := by
  obtain ⟨handles, hvalid, hrest⟩ := Except.bind_eq_ok.1 h
  cases hrest
  refine ⟨?_, rfl⟩
  rw [hops, Dom.validateOps, Validation.validateFrom] at hvalid
  obtain ⟨stepped, hstep, -⟩ := Except.bind_eq_ok.1 hvalid
  obtain ⟨hrequire, -⟩ := Except.unit_bind_eq_ok.1 hstep
  rw [Validation.require] at hrequire
  split at hrequire
  · next hexists =>
    simp only [Validation.exists, Bool.and_eq_true, Bool.or_eq_true] at hexists
    rcases hexists.2 with hoverlay | htag
    · cases hoverlay
    · rw [Dom.get]
      simpa [Dom.skeleton] using htag
  · cases hrequire

end

/-! ## Storing -/

section

variable {S : OutputSerde} {B : Blobs} {store store' : B.Store}

theorem fromString_get (output : RawOutput S) : RawOutput.fromString S output.get = some output :=
  dif_pos output.isJson

theorem get_of_fromString {text : String} {output : RawOutput S}
    (h : RawOutput.fromString S text = some output) : output.get = text := by
  rw [RawOutput.fromString] at h
  split at h
  · cases h
    rfl
  · cases h

/-- A blob with the text of an output. -/
theorem readSpilled_eq_ok {blob : BlobRef} {output : RawOutput S} :
    readSpilled S B store blob = .ok (some output) ↔ B.get store blob = .ok (bytes output.get) := by
  rw [readSpilled]
  constructor
  · intro h
    split at h
    · cases h
    · next data hdata =>
      split at h
      · cases h
      · next json hjson =>
        split at h
        · cases h
        · next found hfound =>
          cases h
          rw [hdata, fromUtf8_eq_some hjson, get_of_fromString hfound]
  · intro h
    rw [h]
    simp only [fromUtf8_bytes, fromString_get]

/-- The later store has what the earlier one has, and of the texts within the bound nothing else. -/
structure Extends (B : Blobs) (bound : Nat) (store store' : B.Store) : Prop where
  kept : ∀ {blob data}, B.get store blob = .ok data → B.get store' blob = .ok data
  new : ∀ {blob} {data : Bytes}, data.length ≤ bound → B.get store' blob = .ok data →
    B.get store blob = .ok data

theorem Extends.refl {bound : Nat} : Extends B bound store store := ⟨id, fun _ => id⟩

theorem extends_boundedOutput {output stored : RawOutput S} {bound : Nat}
    (h : boundedOutput S B store output bound = .ok (stored, store')) : Extends B bound store store' := by
  rw [boundedOutput] at h
  split at h
  · cases h
    exact .refl
  · next hlong =>
    split at h
    · cases h
    · next hput =>
      cases h
      refine ⟨B.get_kept hput, fun hshort hget => (B.get_new hput hget).resolve_left ?_⟩
      rintro rfl
      exact hlong hshort

theorem boundedOps_spec {handle : Handle} {key : PropKey} {output : Option (RawOutput S)} {bound : Nat}
    {ops : List Op} (h : boundedOps S B store handle key bound output = .ok (ops, store')) :
    (key ≠ .known .data → ∀ op ∈ ops, Aside handle op) ∧ Extends B bound store store' := by
  cases output with
  | none =>
    cases h
    exact ⟨fun _ op hop => absurd hop List.not_mem_nil, .refl⟩
  | some output =>
    obtain ⟨⟨stored, next⟩, hbounded, heq⟩ := Except.map_eq_ok.1 h
    cases heq
    refine ⟨fun hkey => ?_, extends_boundedOutput hbounded⟩
    rw [List.forall_mem_singleton]
    exact .set _ hkey

/-- Resolving what stands for an output that was spilled. -/
theorem resolve_spilled {output stored : RawOutput S} {bound : Nat}
    (hlong : bound < (bytes output.get).length)
    (h : boundedOutput S B store output bound = .ok (stored, store')) {later : B.Store}
    (hlater : Extends B bound store' later) :
    resolveOutput S B later stored = .ok (some output) := by
  rw [boundedOutput, if_neg (Nat.not_le.2 hlong)] at h
  split at h
  · cases h
  · next blob next hput =>
    cases h
    have hblob : (⟨blob.hash, u64FromUsize (bytes output.get).length⟩ : BlobRef) = blob := by
      rw [← B.size_put hput]
    rw [resolveOutput]
    simp only [S.read_write, spilledOutput, stripAddress_append, fromStr_toHex]
    rw [readSpilled_eq_ok, hblob]
    exact hlater.kept (B.get_put hput)

/-- The output is the record of a blob that holds its own text. -/
def NamesItself (S : OutputSerde) (B : Blobs) (store : B.Store) (output : RawOutput S)
    (spilled : SpilledOutput) : Prop :=
  ∃ hex hash, stripAddress spilled.artifact = some hex ∧ Hash32.fromStr (bytes hex) = some hash ∧
    B.get store ⟨hash, spilled.byteLen⟩ = .ok (bytes output.get)

/-- Resolving an output that was kept. -/
theorem resolve_kept {output : RawOutput S} : resolveOutput S B store output = .ok (some output) ↔
    ∀ spilled, S.read output.get = some spilled → NamesItself S B store output spilled := by
  rw [resolveOutput]
  cases hread : S.read output.get with
  | none => exact iff_of_true rfl fun _ h => by cases h
  | some spilled =>
    simp only [Option.some.injEq, forall_eq', NamesItself]
    cases hstrip : stripAddress spilled.artifact with
    | none => simp
    | some hex =>
      cases hhash : Hash32.fromStr (bytes hex) with
      | none => simp [hhash]
      | some hash => simp [hhash, readSpilled_eq_ok]

theorem namesItself_iff {output : RawOutput S} {spilled : SpilledOutput} {bound : Nat}
    (h : Extends B bound store store') (hshort : (bytes output.get).length ≤ bound) :
    NamesItself S B store' output spilled ↔ NamesItself S B store output spilled := by
  constructor
  · rintro ⟨hex, hash, hhex, hhash, hget⟩
    exact ⟨hex, hash, hhex, hhash, h.new hshort hget⟩
  · rintro ⟨hex, hash, hhex, hhash, hget⟩
    exact ⟨hex, hash, hhex, hhash, h.kept hget⟩

/-! ## The patch -/

theorem aside_custom (handle : Handle) (name : String) (value : Value) :
    Aside handle (.set handle (.custom name) value) :=
  .set value fun hkey => by cases hkey

theorem executionOps_spec {handle : Handle} {execution : Option (ExecutionSettlement S)} {bound : Nat}
    {ops : List Op} (h : executionOps S B store handle bound execution = .ok (ops, store')) :
    (∀ op ∈ ops, Aside handle op) ∧ Extends B bound store store' := by
  cases execution with
  | none =>
    cases h
    exact ⟨fun op hop => absurd hop List.not_mem_nil, .refl⟩
  | some execution =>
    obtain ⟨⟨result, next⟩, hresult, heq⟩ := Except.map_eq_ok.1 h
    cases heq
    obtain ⟨haside, hextends⟩ := boundedOps_spec hresult
    refine ⟨fun op hop => ?_, hextends⟩
    simp only [List.mem_append, List.mem_singleton, List.mem_map] at hop
    rcases hop with ((rfl | hop) | hop) | ⟨kind, -, rfl⟩
    · exact aside_custom ..
    · cases haccepted : execution.handle with
      | none =>
        rw [haccepted] at hop
        cases hop
      | some accepted =>
        rw [haccepted] at hop
        simp only [Option.elim_some, reattachOps, List.mem_cons, List.not_mem_nil, or_false] at hop
        rcases hop with rfl | rfl | rfl <;> exact aside_custom ..
    · exact haside (fun hkey => by cases hkey) op hop
    · exact aside_custom ..

theorem aside_launchCompletionOps {dom : Dom} {handle : Handle}
    {completion : Option LaunchDaemonCompletion} {ops : List Op}
    (h : completion.elim (.ok []) (launchCompletionOps dom handle) = .ok ops) :
    ∀ op ∈ ops, Aside handle op := by
  cases completion with
  | none =>
    cases h
    exact fun op hop => absurd hop List.not_mem_nil
  | some completion =>
    rw [Option.elim_some, launchCompletionOps] at h
    split at h
    · cases h
    · cases h
      simp only [List.forall_mem_cons]
      exact ⟨.ins .., aside_custom .., fun op hop => absurd hop List.not_mem_nil⟩

/-- A settlement sets the bounded output, and nothing of the job's data behind it. -/
theorem settlementOps_spec {dom : Dom} {handle : Handle} {settlement : JobSettlement S}
    {elapsedMs : UInt64} {bound : Nat} {ops : List Op} {output : RawOutput S}
    (houtput : settlement.output = some output)
    (h : settlementOps S B store dom handle settlement elapsedMs bound = .ok (ops, store')) :
    ∃ stored mid duration later, boundedOutput S B store output bound = .ok (stored, mid) ∧
      Extends B bound mid store' ∧
      ops = .set handle (.known .status) (.str settlement.status) ::
        .set handle (.known .durationMs) duration ::
          .set handle (.known .data) (.json stored.get) :: later ∧
      ∀ op ∈ later, Aside handle op := by
  obtain ⟨⟨set, mid⟩, hset, h⟩ := Except.bind_eq_ok.1 h
  obtain ⟨⟨execution, last⟩, hexecution, h⟩ := Except.bind_eq_ok.1 h
  obtain ⟨completion, hcompletion, h⟩ := Except.bind_eq_ok.1 h
  cases h
  rw [houtput] at hset
  obtain ⟨⟨stored, mid'⟩, hbounded, heq⟩ := Except.map_eq_ok.1 hset
  cases heq
  obtain ⟨haside, hextends⟩ := executionOps_spec hexecution
  refine ⟨stored, mid, _, settlement.error.toList.map (fun error =>
    .set handle (.custom "error") (.str error)) ++ execution ++ completion, hbounded, hextends, rfl,
    fun op hop => ?_⟩
  simp only [List.mem_append, List.mem_map] at hop
  rcases hop with (⟨error, -, rfl⟩ | hop) | hop
  · exact aside_custom ..
  · exact haside op hop
  · exact aside_launchCompletionOps hcompletion op hop

/-- The record of the job then has the bounded output. -/
theorem record_of_commit {dom dom' : Dom} (htree : dom.skeleton.Tree) {head : Option EntryId}
    {handle : Handle} {settlement : JobSettlement S} {elapsedMs : UInt64} {bound : Nat}
    {output : RawOutput S} (houtput : settlement.output = some output)
    (h : commitSettlement S B store dom handle settlement elapsedMs bound head = .ok (store', dom')) :
    ∃ stored mid, boundedOutput S B store output bound = .ok (stored, mid) ∧
      Extends B bound mid store' ∧ recordOutput S dom' handle = some stored := by
  cases head with
  | none => cases h
  | some cause =>
    obtain ⟨⟨ops, next⟩, hops, h⟩ := Except.bind_eq_ok.1 h
    simp only at h
    split at h
    · cases h
    · next happly =>
      cases h
      obtain ⟨stored, mid, duration, later, hbounded, hextends, rfl, haside⟩ :=
        settlementOps_spec houtput hops
      refine ⟨stored, mid, hbounded, hextends, ?_⟩
      obtain ⟨hsome, rfl⟩ := get_of_apply rfl happly
      obtain ⟨node, hnode⟩ := Option.isSome_iff_exists.1 hsome
      let settled := ((dom.applyOp (.set handle (.known .status) (.str settlement.status))).applyOp
        (.set handle (.known .durationMs) duration)).applyOp
          (.set handle (.known .data) (.json stored.get))
      have hle : handle ≤ settled.highWater := by
        apply htree.bounded
        rw [Dom.get] at hnode
        simp [Dom.skeleton, hnode]
      have hdata : (settled.applyOps later).prop handle (.known .data) = some (.json stored.get) := by
        rw [applyOps_aside haside hle, prop_applyOp_set, if_pos rfl, get_applyOp_set, get_applyOp_set,
          hnode]
        rfl
      rw [recordOutput, Dom.applyOps, List.foldl_cons, List.foldl_cons, List.foldl_cons,
        ← Dom.applyOps, hdata]
      exact fromString_get stored

end

/-! ## Compact records -/

/-- The characters of a string up to its closing quote. -/
def readChars : List Char → Option (List Char × List Char)
  | [] => none
  | '"' :: rest => some ([], rest)
  | '\\' :: c :: rest => (readChars rest).map fun p => (c :: p.1, p.2)
  | c :: rest => (readChars rest).map fun p => (c :: p.1, p.2)

def escape (c : Char) : List Char := if c = '"' ∨ c = '\\' then ['\\', c] else [c]

theorem readChars_escape (text rest : List Char) :
    readChars (text.flatMap escape ++ '"' :: rest) = some (text, rest) := by
  induction text with
  | nil => rfl
  | cons c text ih =>
    rw [List.flatMap_cons, escape]
    split
    · simp only [List.cons_append, List.nil_append]
      rw [readChars, ih]
      rfl
    · next hc =>
      simp only [List.cons_append, List.nil_append]
      rw [readChars, ih]
      · rfl
      · rintro rfl
        exact hc (.inl rfl)
      · rintro _ _ rfl
        exact absurd (Or.inr rfl) hc

/-- What follows the expected text. -/
def skip (expected text : List Char) : Option (List Char) :=
  if expected.isPrefixOf text then some (text.drop expected.length) else none

theorem skip_append (expected text : List Char) : skip expected (expected ++ text) = some text := by
  rw [skip, if_pos (List.isPrefixOf_iff_prefix.2 (List.prefix_append _ _)), List.drop_left]

def artifactField : List Char := "\x7b\"artifact\":\"".toList
def byteLenField : List Char := ",\"byte_len\":".toList
def textField : List Char := ",\"text\":\"".toList

/-- The text of the last field, and the end of the record. -/
def readText (rest : List Char) : Option (Option String) :=
  if rest = ['\x7d'] then some none
  else do
    let (text, rest) ← readChars (← skip textField rest)
    if rest = ['\x7d'] then some (some (.ofList text)) else none

def readRecord (text : List Char) : Option SpilledOutput := do
  let (artifact, rest) ← readChars (← skip artifactField text)
  let rest ← skip byteLenField rest
  let byteLen ← parseU64 (rest.takeWhile Char.isDigit)
  return { artifact := .ofList artifact, byteLen, text := ← readText (rest.dropWhile Char.isDigit) }

def writeText : Option String → List Char
  | none => ['\x7d']
  | some text => textField ++ (text.toList.flatMap escape ++ ['"', '\x7d'])

def writeRecord (spilled : SpilledOutput) : List Char :=
  artifactField ++ (spilled.artifact.toList.flatMap escape ++ '"' :: (byteLenField ++
    (Nat.toDigits 10 spilled.byteLen.toNat ++ writeText spilled.text)))

theorem writeText_head (text : Option String) :
    ∃ c rest, writeText text = c :: rest ∧ c.isDigit = false := by
  cases text with
  | none => exact ⟨_, _, rfl, rfl⟩
  | some text => exact ⟨_, _, rfl, rfl⟩

theorem readText_writeText (text : Option String) : readText (writeText text) = some text := by
  cases text with
  | none => rfl
  | some text =>
    have hne : writeText (some text) ≠ ['\x7d'] := fun h => by cases h
    rw [readText, if_neg hne, writeText, skip_append]
    simp only [Option.bind_eq_bind, Option.bind_some, readChars_escape, if_true, String.ofList_toList]

theorem readRecord_writeRecord (spilled : SpilledOutput) :
    readRecord (writeRecord spilled) = some spilled := by
  have hdigits : ∀ c ∈ Nat.toDigits 10 spilled.byteLen.toNat, c.isDigit = true := fun c hc =>
    Nat.isDigit_of_mem_toDigits (by decide) (by decide) hc
  obtain ⟨c, rest, htext, hc⟩ := writeText_head spilled.text
  have htake : (Nat.toDigits 10 spilled.byteLen.toNat ++ writeText spilled.text).takeWhile Char.isDigit =
      Nat.toDigits 10 spilled.byteLen.toNat := by
    rw [htext, List.takeWhile_append_of_pos hdigits, List.takeWhile_cons_of_neg (by simp [hc]),
      List.append_nil]
  have hdrop : (Nat.toDigits 10 spilled.byteLen.toNat ++ writeText spilled.text).dropWhile Char.isDigit =
      writeText spilled.text := by
    rw [htext, List.dropWhile_append_of_pos hdigits, List.dropWhile_cons_of_neg (by simp [hc])]
  unfold readRecord writeRecord
  simp only [skip_append, Option.bind_eq_bind, Option.bind_some, readChars_escape, htake, hdrop,
    parseU64_toDigits, readText_writeText, String.ofList_toList, pure]

theorem read_write_compact (spilled : SpilledOutput) :
    readRecord (String.ofList (writeRecord spilled)).toList = some spilled := by
  rw [String.toList_ofList, readRecord_writeRecord]

/-- Reads and writes compact records, and takes no other JSON than `true`. -/
def compactSerde : OutputSerde where
  isJson text := text = "true" || (readRecord text.toList).isSome
  read text := readRecord text.toList
  write spilled := .ofList (writeRecord spilled)
  textMember text := (readRecord text.toList).bind SpilledOutput.text
  isJson_write spilled := by rw [read_write_compact, Option.isSome_some, Bool.or_true]
  read_write := read_write_compact

theorem length_noHash : (List.replicate 32 (0 : UInt8)).length = 32 := List.length_replicate

/-- The address in a store with room for one blob. -/
def onlyAddress (data : Bytes) : BlobRef :=
  ⟨⟨List.replicate 32 0, length_noHash⟩, u64FromUsize data.length⟩

def onlyPut : Option Bytes → Bytes → Except BlobError (BlobRef × Option Bytes)
  | none, data => .ok (onlyAddress data, some data)
  | some held, data => if held = data then .ok (onlyAddress data, some held) else .error .io

def onlyGet : Option Bytes → BlobRef → Except BlobError Bytes
  | none, _ => .error .notFound
  | some held, blob => if blob = onlyAddress held then .ok held else .error .notFound

theorem onlyPut_eq_ok {store store' : Option Bytes} {data : Bytes} {blob : BlobRef}
    (h : onlyPut store data = .ok (blob, store')) :
    blob = onlyAddress data ∧ store' = some data ∧ ∀ held ∈ store, held = data := by
  cases store with
  | none =>
    cases h
    exact ⟨rfl, rfl, fun _ hheld => by cases hheld⟩
  | some held =>
    rw [onlyPut] at h
    split at h
    · next heq =>
      cases h
      exact ⟨rfl, congrArg some heq, fun _ hheld => Option.mem_some.1 hheld ▸ heq⟩
    · cases h

theorem onlyGet_put {store store' : Option Bytes} {data : Bytes} {blob : BlobRef}
    (h : onlyPut store data = .ok (blob, store')) : onlyGet store' blob = .ok data := by
  obtain ⟨rfl, rfl, -⟩ := onlyPut_eq_ok h
  exact if_pos rfl

theorem onlyGet_kept {store store' : Option Bytes} {data held : Bytes} {blob other : BlobRef}
    (h : onlyPut store data = .ok (blob, store')) (hget : onlyGet store other = .ok held) :
    onlyGet store' other = .ok held := by
  obtain ⟨rfl, rfl, hstore⟩ := onlyPut_eq_ok h
  cases store with
  | none => cases hget
  | some kept =>
    cases hstore kept rfl
    exact hget

theorem onlyGet_new {store store' : Option Bytes} {data held : Bytes} {blob other : BlobRef}
    (h : onlyPut store data = .ok (blob, store')) (hget : onlyGet store' other = .ok held) :
    held = data ∨ onlyGet store other = .ok held := by
  obtain ⟨rfl, rfl, -⟩ := onlyPut_eq_ok h
  rw [onlyGet] at hget
  split at hget
  · cases hget
    exact .inl rfl
  · cases hget

/-- A store with room for one blob. -/
def onlyBlob : Blobs where
  Store := Option Bytes
  put := onlyPut
  get := onlyGet
  size_put h := by rw [(onlyPut_eq_ok h).1, onlyAddress]
  get_put := onlyGet_put
  get_kept := onlyGet_kept
  get_new := onlyGet_new

def settledTurn : EntryId := ⟨1, Nat.one_lt_two_pow (by decide)⟩

/-- The settlement of a job with this output. -/
def completedWith (output : RawOutput compactSerde) : JobSettlement compactSerde :=
  { status := "completed", output := some output }

def trueOutput : RawOutput compactSerde := ⟨"true", rfl⟩

/-- A short output that has the fields of a spilled one. -/
def recordLike : RawOutput compactSerde :=
  ⟨compactSerde.write { artifact := "x", byteLen := 1 }, compactSerde.isJson_write _⟩

end OhMyPi.Jobs
