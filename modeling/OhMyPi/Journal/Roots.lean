import OhMyPi.Lib.Search
import OhMyPi.Journal.File

/-! Blob roots of journal payloads (`journal/src/gc.rs`): typed references anywhere in a value, and
content addresses inside its strings. The string scanner steps 64 bytes past every prefix it
finds, hexadecimal or not, so an address that begins inside that stretch is never looked at. -/

namespace OhMyPi

/-- A 32-byte content digest. -/
structure Hash32 where
  bytes : List UInt8
  length_eq : bytes.length = 32
deriving DecidableEq

namespace Hash32

def isLowerHex (b : UInt8) : Bool := (48 ≤ b && b ≤ 57) || (97 ≤ b && b ≤ 102)

/-- The value of a lowercase hexadecimal digit. -/
def nibble (b : UInt8) : UInt8 := if b ≤ 57 then b - 48 else b - 87

/-- Two digits a byte, high half first. -/
def decodePairs : Bytes → Bytes
  | hi :: lo :: rest => (nibble hi * 16 + nibble lo) :: decodePairs rest
  | _ => []

theorem length_decodePairs : (hex : Bytes) → (decodePairs hex).length = hex.length / 2
  | [] => by simp [decodePairs]
  | [_] => by simp [decodePairs]
  | _ :: _ :: rest => by
    rw [decodePairs, List.length_cons, length_decodePairs rest, List.length_cons, List.length_cons]
    omega

/-- `FromStr for Hash32`: exactly 64 lowercase hexadecimal digits. -/
def fromStr (value : Bytes) : Option Hash32 :=
  if h : value.length = 64 then
    if value.all isLowerHex then some ⟨decodePairs value, by rw [length_decodePairs, h]⟩ else none
  else none

end Hash32

namespace Gc

/-- `u8::make_ascii_lowercase`. -/
def lowercase (b : UInt8) : UInt8 := if 65 ≤ b && b ≤ 90 then b + 32 else b

/-- `parse_digest`: 64 hexadecimal digits of either case. -/
def parseDigest (hex : Bytes) : Option Hash32 :=
  if hex.length = 64 then Hash32.fromStr (hex.map lowercase) else none

/-- `str::is_char_boundary` on the bytes of a text. -/
def isCharBoundary (text : Bytes) (n : Nat) : Bool :=
  match text[n]? with
  | some b => b < 128 || 192 ≤ b
  | none => n = text.length

/-- `str::get(..n)`. -/
def getTo (text : Bytes) (n : Nat) : Option Bytes :=
  if isCharBoundary text n then some (text.take n) else none

/-- The loop of `collect_uri_roots` for one prefix, over what is left of the text. -/
def collectUriFrom (pre : Bytes) (hpre : pre ≠ []) (text : Bytes) : List Hash32 :=
  match _h : Search.afterFirst pre text with
  | none => []
  | some rest =>
    match getTo rest 64 with
    | none => []
    | some hex => (parseDigest hex).toList ++ collectUriFrom pre hpre (rest.drop 64)
termination_by text.length
decreasing_by
  have hlt := Search.length_afterFirst_lt hpre _h
  rw [List.length_drop]
  omega

def artifactScheme : Bytes := Text.bytes "artifact://sha256/"

def blobScheme : Bytes := Text.bytes "blob:sha256:"

/-- `collect_uri_roots`. -/
def collectUriRoots (text : String) : List Hash32 :=
  collectUriFrom artifactScheme (by decide) (Text.bytes text) ++
    collectUriFrom blobScheme (by decide) (Text.bytes text)

/-- The digest a member names, when it is a string. -/
def digestField (fields : List (String × Json)) (key : String) : Option Hash32 :=
  ((Json.field fields key).bind Json.asStr).bind fun text => parseDigest (Text.bytes text)

/-- Whether a member is an unsigned integer. -/
def hasU64 (fields : List (String × Json)) (key : String) : Bool :=
  ((Json.field fields key).bind Json.asU64).isSome

/-- The roots of an object that is itself a typed reference, in either spelling. -/
def typedRoots (fields : List (String × Json)) : List Hash32 :=
  (if hasU64 fields "n" then (digestField fields "h").toList else []) ++
  (if hasU64 fields "byte_len" || hasU64 fields "size" then (digestField fields "hash").toList
   else [])

mutual
/-- `collect_value_roots`. -/
def collectValueRoots : Json → List Hash32
  | .object fields => typedRoots fields ++ collectFieldRoots fields
  | .array items => collectItemRoots items
  | .string text => collectUriRoots text
  | .null | .bool _ | .number _ => []

def collectItemRoots : List Json → List Hash32
  | [] => []
  | item :: items => collectValueRoots item ++ collectItemRoots items

def collectFieldRoots : List (String × Json) → List Hash32
  | [] => []
  | (_, value) :: fields => collectValueRoots value ++ collectFieldRoots fields
end

/-- `collect_entry_roots`; a payload that is not a value fails the collection. -/
def collectEntryRoots (json : SerdeJson) (entry : Entry) : Option (List Hash32) :=
  (json.value entry.data).map collectValueRoots

/-! ## Addresses and hits -/

/-- A content address in a text: a prefix at byte `i` followed by 64 hexadecimal digits. -/
def Address (pre text : Bytes) (i : Nat) (d : Hash32) : Prop :=
  pre <+: text.drop i ∧ parseDigest ((text.drop (i + pre.length)).take 64) = some d

/-- The prefix at byte `i` is one the scanner stops at: every earlier stop has 64 whole
characters' bytes behind it, and they end at or before `i`. -/
def Hit (pre text : Bytes) (i : Nat) : Prop :=
  Search.Hit pre 64 (fun rest => isCharBoundary rest 64) text i

theorem collectUriFrom_eq (pre : Bytes) (hpre : pre ≠ []) (text : Bytes) :
    collectUriFrom pre hpre text =
      (Search.scan pre hpre 64 (fun rest => isCharBoundary rest 64) text).flatMap fun rest =>
        ((getTo rest 64).bind parseDigest).toList := by
  induction hn : text.length using Nat.strongRecOn generalizing text with
  | ind n ih =>
    rw [collectUriFrom]
    split
    · next h => rw [Search.scan_of_none h]; rfl
    · next rest h =>
      have hlt : (rest.drop 64).length < n := by
        have := Search.length_afterFirst_lt hpre h
        rw [List.length_drop]
        omega
      rw [Search.scan_of_some h, List.flatMap_cons, getTo]
      cases hb : isCharBoundary rest 64 with
      | false => simp
      | true => simp [ih _ hlt _ rfl]

private theorem ascii_of_lowerHex (h : Hash32.isLowerHex (lowercase x) = true) :
    x.toNat < 128 := by
  revert h
  have hall : ∀ n < 256, Hash32.isLowerHex (lowercase (UInt8.ofNat n)) = true → n < 128 := by
    decide +kernel
  have := hall x.toNat x.toNat_lt
  rwa [UInt8.ofNat_toNat] at this

/-- A digest is read from 64 bytes, all of them ASCII. -/
theorem parseDigest_some (h : parseDigest hex = some d) :
    hex.length = 64 ∧ ∀ x ∈ hex, x.toNat < 128 := by
  rw [parseDigest] at h
  split at h
  · next hlen =>
    rw [Hash32.fromStr] at h
    split at h
    · split at h
      · next hall =>
        refine ⟨hlen, fun x hx => ascii_of_lowerHex (List.all_eq_true.1 hall _ ?_)⟩
        exact List.mem_map_of_mem hx
      · cases h
    · cases h
  · cases h

/-- Behind 64 digits a text can be cut. -/
theorem Address.boundary {text : String} (h : Address pre (Text.bytes text) i d) :
    isCharBoundary ((Text.bytes text).drop (i + pre.length)) 64 = true := by
  obtain ⟨hlen, hascii⟩ := parseDigest_some h.2
  generalize hrest : (Text.bytes text).drop (i + pre.length) = rest at *
  rw [isCharBoundary]
  cases hb : rest[64]? with
  | none =>
    have := List.getElem?_eq_none_iff.1 hb
    rw [List.length_take] at hlen
    simp only [decide_eq_true_eq]
    omega
  | some b =>
    -- The 64th digit is an ASCII byte, and `b` follows it.
    obtain ⟨init, last, hsplit⟩ : ∃ init last, rest.take 64 = init ++ [last] :=
      ⟨_, _, (List.dropLast_append_getLast (List.ne_nil_of_length_pos (by omega))).symm⟩
    have htext : text.toList.flatMap String.utf8EncodeChar =
        ((Text.bytes text).take (i + pre.length) ++ init) ++ [last] ++ rest.drop 64 := by
      rw [List.append_assoc _ init, ← hsplit, List.append_assoc, List.take_append_drop, ← hrest,
        List.take_append_drop]
      rfl
    have hhead := Text.head_after_ascii htext (hascii last (by rw [hsplit]; simp)) b
      (by rw [List.head?_drop, hb]; rfl)
    simp only [Bool.or_eq_true, decide_eq_true_eq, UInt8.lt_iff_toNat_lt, UInt8.le_iff_toNat_le]
    exact hhead

theorem mem_collectUriFrom {hpre : pre ≠ []} {text : String} :
    d ∈ collectUriFrom pre hpre (Text.bytes text) ↔
      ∃ i, Hit pre (Text.bytes text) i ∧ Address pre (Text.bytes text) i d := by
  simp only [collectUriFrom_eq, List.mem_flatMap, Search.mem_scan, Option.mem_toList]
  constructor
  · rintro ⟨rest, ⟨i, hit, rfl⟩, hd⟩
    obtain ⟨hex, hget, hparse⟩ := Option.bind_eq_some_iff.1 hd
    rw [getTo] at hget
    split at hget
    · cases hget
      exact ⟨i, hit, hit.occurs, hparse⟩
    · cases hget
  · rintro ⟨i, hit, haddr⟩
    refine ⟨_, ⟨i, hit, rfl⟩, ?_⟩
    rw [getTo, if_pos haddr.boundary]
    exact haddr.2

/-! ## Roots of a value -/

/-- `Within u v`: the value `u` occurs in `v` at some depth. -/
inductive Within : Json → Json → Prop where
  | refl (v : Json) : Within v v
  | item : item ∈ items → Within u item → Within u (.array items)
  | field : (key, value) ∈ fields → Within u value → Within u (.object fields)

/-- An object that refers to the blob `d`, as a blob reference or as a sized hash. -/
def TypedRef (fields : List (String × Json)) (d : Hash32) : Prop :=
  (∃ text n, Json.field fields "h" = some (.string text) ∧
    Json.field fields "n" = some (.number (.posInt n)) ∧
    parseDigest (Text.bytes text) = some d) ∨
  (∃ text n, Json.field fields "hash" = some (.string text) ∧
    (Json.field fields "byte_len" = some (.number (.posInt n)) ∨
      Json.field fields "size" = some (.number (.posInt n))) ∧
    parseDigest (Text.bytes text) = some d)

/-- The roots a single value contributes on its own, its members apart. -/
def ownRoots : Json → List Hash32
  | .object fields => typedRoots fields
  | .string text => collectUriRoots text
  | _ => []

mutual
theorem mem_collectValueRoots : (v : Json) →
    (d ∈ collectValueRoots v ↔ ∃ u, Within u v ∧ d ∈ ownRoots u)
  | .object fields => by
    rw [collectValueRoots, List.mem_append, mem_collectFieldRoots fields]
    constructor
    · rintro (h | ⟨key, value, hmem, u, hu, hd⟩)
      · exact ⟨_, .refl _, h⟩
      · exact ⟨u, .field hmem hu, hd⟩
    · rintro ⟨u, hu, hd⟩
      cases hu with
      | refl => exact .inl hd
      | field hmem hu => exact .inr ⟨_, _, hmem, u, hu, hd⟩
  | .array items => by
    rw [collectValueRoots, mem_collectItemRoots items]
    constructor
    · rintro ⟨item, hmem, u, hu, hd⟩
      exact ⟨u, .item hmem hu, hd⟩
    · rintro ⟨u, hu, hd⟩
      cases hu with
      | refl => cases hd
      | item hmem hu => exact ⟨_, hmem, u, hu, hd⟩
  | .string text => by
    rw [collectValueRoots]
    constructor
    · exact fun h => ⟨_, .refl _, h⟩
    · rintro ⟨u, hu, hd⟩
      cases hu
      exact hd
  | .null | .bool _ | .number _ => by
    rw [collectValueRoots]
    constructor
    · exact nofun
    · rintro ⟨u, hu, hd⟩
      cases hu
      cases hd

theorem mem_collectItemRoots : (items : List Json) →
    (d ∈ collectItemRoots items ↔ ∃ item ∈ items, ∃ u, Within u item ∧ d ∈ ownRoots u)
  | [] => by simp [collectItemRoots]
  | item :: items => by
    rw [collectItemRoots, List.mem_append, mem_collectValueRoots item, mem_collectItemRoots items,
      List.exists_mem_cons_iff]

theorem mem_collectFieldRoots : (fields : List (String × Json)) →
    (d ∈ collectFieldRoots fields ↔
      ∃ key value, (key, value) ∈ fields ∧ ∃ u, Within u value ∧ d ∈ ownRoots u)
  | [] => by simp [collectFieldRoots]
  | (key, value) :: fields => by
    rw [collectFieldRoots, List.mem_append, mem_collectValueRoots value,
      mem_collectFieldRoots fields]
    constructor
    · rintro (h | ⟨k, v, hmem, h⟩)
      · exact ⟨key, value, by simp, h⟩
      · exact ⟨k, v, by simp [hmem], h⟩
    · rintro ⟨k, v, hmem, h⟩
      rcases List.mem_cons.1 hmem with heq | hmem
      · cases heq
        exact .inl h
      · exact .inr ⟨k, v, hmem, h⟩
end

theorem digestField_eq_some : digestField fields key = some d ↔
    ∃ text, Json.field fields key = some (.string text) ∧
      parseDigest (Text.bytes text) = some d := by
  simp only [digestField, Option.bind_eq_some_iff]
  constructor
  · rintro ⟨text, ⟨v, hv, htext⟩, hd⟩
    cases v <;> cases htext
    exact ⟨text, hv, hd⟩
  · rintro ⟨text, hv, hd⟩
    exact ⟨text, ⟨_, hv, rfl⟩, hd⟩

theorem hasU64_iff : hasU64 fields key = true ↔
    ∃ n, Json.field fields key = some (.number (.posInt n)) := by
  simp only [hasU64, Option.isSome_iff_exists, Option.bind_eq_some_iff]
  constructor
  · rintro ⟨n, v, hv, hn⟩
    cases v with
    | number num => cases num <;> cases hn; exact ⟨_, hv⟩
    | _ => cases hn
  · rintro ⟨n, hv⟩
    exact ⟨n, _, hv, rfl⟩

theorem mem_typedRoots : d ∈ typedRoots fields ↔ TypedRef fields d := by
  have hguard (c : Bool) (o : Option Hash32) :
      d ∈ (if c = true then o.toList else []) ↔ c = true ∧ o = some d := by
    cases c <;> simp
  simp only [typedRoots, List.mem_append, hguard, Bool.or_eq_true, hasU64_iff,
    digestField_eq_some, TypedRef]
  constructor
  · rintro (⟨⟨n, hn⟩, text, htext, hd⟩ | ⟨⟨n, hn⟩ | ⟨n, hn⟩, text, htext, hd⟩)
    · exact .inl ⟨text, n, htext, hn, hd⟩
    · exact .inr ⟨text, n, htext, .inl hn, hd⟩
    · exact .inr ⟨text, n, htext, .inr hn, hd⟩
  · rintro (⟨text, n, htext, hn, hd⟩ | ⟨text, n, htext, hn | hn, hd⟩)
    · exact .inl ⟨⟨n, hn⟩, text, htext, hd⟩
    · exact .inr ⟨.inl ⟨n, hn⟩, text, htext, hd⟩
    · exact .inr ⟨.inr ⟨n, hn⟩, text, htext, hd⟩

/-- The prefixes of the two spellings of a content address. -/
def schemes : List Bytes := [artifactScheme, blobScheme]

/-- The payload `v` names the blob `d`: by a typed reference, or by an address in a string. -/
def Named (v : Json) (d : Hash32) : Prop :=
  (∃ fields, Within (.object fields) v ∧ TypedRef fields d) ∨
  (∃ text, Within (.string text) v ∧ ∃ pre ∈ schemes, ∃ i, Address pre (Text.bytes text) i d)

/-- The same, counting an address only where the scanner stops. -/
def Reached (v : Json) (d : Hash32) : Prop :=
  (∃ fields, Within (.object fields) v ∧ TypedRef fields d) ∨
  (∃ text, Within (.string text) v ∧ ∃ pre ∈ schemes, ∃ i,
    Hit pre (Text.bytes text) i ∧ Address pre (Text.bytes text) i d)

theorem mem_collectUriRoots : d ∈ collectUriRoots text ↔ ∃ pre ∈ schemes, ∃ i,
    Hit pre (Text.bytes text) i ∧ Address pre (Text.bytes text) i d := by
  simp [collectUriRoots, mem_collectUriFrom, schemes]

/-- The collected roots are the typed references and the addresses the scanner stops at. -/
theorem mem_roots_iff_reached (v : Json) : d ∈ collectValueRoots v ↔ Reached v d := by
  rw [mem_collectValueRoots]
  constructor
  · rintro ⟨u, hu, hd⟩
    cases u with
    | object fields => exact .inl ⟨fields, hu, mem_typedRoots.1 hd⟩
    | string text => exact .inr ⟨text, hu, mem_collectUriRoots.1 hd⟩
    | _ => cases hd
  · rintro (⟨fields, hu, hd⟩ | ⟨text, hu, hd⟩)
    · exact ⟨_, hu, mem_typedRoots.2 hd⟩
    · exact ⟨_, hu, mem_collectUriRoots.2 hd⟩

/-- The digest of 64 zeros. -/
def zeroDigest : Hash32 := ⟨List.replicate 32 0, by decide⟩

/-- An address directly behind a bare prefix. -/
def steppedOver : String :=
  "artifact://sha256/artifact://sha256/" ++ String.ofList (List.replicate 64 '0')

end Gc

end OhMyPi
