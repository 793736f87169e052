import OhMyPi.Lib.Text
import Mathlib.Data.Nat.Bitwise
import Mathlib.Tactic.IntervalCases

/-! Entry identities: 128-bit ULIDs, their 26-character Crockford Base32 text (`core/src/ulid.rs`)
and the per-journal monotonic generator (`journal/src/ulid.rs`). The text form round trips, and
a generator only ever hands out identities above everything it has seen. -/

namespace OhMyPi

/-- A 128-bit ULID: a 48-bit millisecond timestamp over 80 bits of entropy. -/
structure Ulid where
  val : Nat
  lt : val < 2 ^ 128
deriving DecidableEq

inductive UlidParseError where
  | invalidLength
  | invalidCharacter
  | overflow
deriving DecidableEq, Repr

namespace Ulid

def encodedLen : Nat := 26

def alphabet : List Char := "0123456789ABCDEFGHJKMNPQRSTVWXYZ".toList

/-- The alphabet's character for a five-bit digit. -/
def digit (d : Nat) : Char := alphabet.getD d '0'

/-- `Display for Ulid`. -/
def encode (u : Ulid) : List Char :=
  (List.range encodedLen).map fun index => digit ((u.val >>> (125 - index * 5)) &&& 0x1f)

def decodeDigit (byte : UInt8) : Option Nat :=
  let b := byte.toNat
  if 48 ≤ b ∧ b ≤ 57 then some (b - 48)          -- '0'..='9'
  else if 65 ≤ b ∧ b ≤ 72 then some (b - 65 + 10)   -- 'A'..='H'
  else if 74 ≤ b ∧ b ≤ 75 then some (b - 74 + 18)   -- 'J'..='K'
  else if 77 ≤ b ∧ b ≤ 78 then some (b - 77 + 20)   -- 'M'..='N'
  else if 80 ≤ b ∧ b ≤ 84 then some (b - 80 + 22)   -- 'P'..='T'
  else if 86 ≤ b ∧ b ≤ 90 then some (b - 86 + 27)   -- 'V'..='Z'
  else if 97 ≤ b ∧ b ≤ 104 then some (b - 97 + 10)
  else if 106 ≤ b ∧ b ≤ 107 then some (b - 106 + 18)
  else if 109 ≤ b ∧ b ≤ 110 then some (b - 109 + 20)
  else if 112 ≤ b ∧ b ≤ 116 then some (b - 112 + 22)
  else if 118 ≤ b ∧ b ≤ 122 then some (b - 118 + 27)
  else none

/-- The loop of `from_str` over the digits after the first. -/
def decodeRest (value : Nat) : List UInt8 → Except UlidParseError Nat
  | [] => .ok value
  | byte :: bytes =>
    match decodeDigit byte with
    | none => .error .invalidCharacter
    | some d => decodeRest ((value <<< 5) % 2 ^ 128 ||| d) bytes

/-- `FromStr for Ulid`, on the bytes of the text. -/
def fromStr (encoded : List Char) : Except UlidParseError Ulid :=
  match encoded.flatMap String.utf8EncodeChar with
  | [] => .error .invalidLength
  | byte :: bytes =>
    if bytes.length + 1 ≠ encodedLen then .error .invalidLength
    else match decodeDigit byte with
      | none => .error .invalidCharacter
      | some first =>
        if first > 7 then .error .overflow
        else (decodeRest first bytes).map fun value =>
          ⟨value % 2 ^ 128, Nat.mod_lt _ (Nat.two_pow_pos _)⟩

/-! ## Round trip -/

/-- Each digit's character is one byte, and that byte decodes to the digit. -/
theorem decodeDigit_digit : ∀ d < 32, ∃ b,
    String.utf8EncodeChar (digit d) = [b] ∧ decodeDigit b = some d := by
  intro d hd
  interval_cases d <;> exact ⟨_, rfl, rfl⟩

/-- The five-bit digit of `v` above bit `s`. -/
private def digitAt (v s : Nat) : Nat := (v >>> s) &&& 0x1f

private theorem digitAt_lt (v s : Nat) : digitAt v s < 32 :=
  Nat.lt_succ_of_le Nat.and_le_right

private theorem shift_or_digitAt (hv : v < 2 ^ 128) (s : Nat) :
    ((v >>> (s + 5)) <<< 5) % 2 ^ 128 ||| digitAt v s = v >>> s := by
  have hlow : digitAt v s = (v >>> s) % 2 ^ 5 := by
    rw [digitAt, show (0x1f : Nat) = 2 ^ 5 - 1 from rfl, Nat.and_two_pow_sub_one_eq_mod]
  have hle : (v >>> (s + 5)) <<< 5 ≤ v := by
    rw [Nat.shiftLeft_eq, Nat.shiftRight_eq_div_pow, Nat.pow_add, ← Nat.div_div_eq_div_mul]
    exact (Nat.div_mul_le_self _ _).trans (Nat.div_le_self _ _)
  have hhigh : (v >>> (s + 5)) <<< 5 = 2 ^ 5 * ((v >>> s) / 2 ^ 5) := by
    rw [Nat.shiftRight_add, Nat.shiftLeft_eq, Nat.shiftRight_eq_div_pow _ 5, Nat.mul_comm]
  rw [Nat.mod_eq_of_lt (by omega), hhigh, hlow,
    ← Nat.two_pow_add_eq_or_of_lt (Nat.mod_lt _ (by decide)), Nat.div_add_mod]

private theorem decodeRest_append (hxs : decodeRest value xs = .ok value') :
    decodeRest value (xs ++ ys) = decodeRest value' ys := by
  induction xs generalizing value with
  | nil => cases hxs; rfl
  | cons x xs ih =>
    rw [decodeRest] at hxs
    rw [List.cons_append, decodeRest]
    split at hxs
    · cases hxs
    · exact ih hxs

/-- After `n` more digits the loop holds the identity without the bits still to come. -/
private theorem decodeRest_digits (hv : v < 2 ^ 128) : ∀ n, (hn : n ≤ 25) →
    decodeRest (v >>> 125) (((List.range n).map fun i =>
      digit (digitAt v (120 - i * 5))).flatMap String.utf8EncodeChar) = .ok (v >>> (125 - n * 5))
  | 0, _ => rfl
  | n + 1, hn => by
    obtain ⟨b, hb, hdec⟩ := decodeDigit_digit _ (digitAt_lt v (120 - n * 5))
    rw [List.range_succ, List.map_append, List.flatMap_append,
      decodeRest_append (decodeRest_digits hv n (by omega))]
    simp only [List.map_cons, List.map_nil, List.flatMap_cons, List.flatMap_nil, hb,
      List.append_nil, decodeRest, hdec]
    rw [show 125 - n * 5 = (120 - n * 5) + 5 by omega, shift_or_digitAt hv,
      show 120 - n * 5 = 125 - (n + 1) * 5 by omega]

private theorem length_flatMap_digit (ds : List Nat) (hds : ∀ d ∈ ds, d < 32) :
    ((ds.map digit).flatMap String.utf8EncodeChar).length = ds.length := by
  induction ds with
  | nil => rfl
  | cons d ds ih =>
    obtain ⟨b, hb, -⟩ := decodeDigit_digit d (hds d (by simp))
    simp [hb, ih fun d' h => hds d' (by simp [h])]

theorem encode_eq (u : Ulid) : u.encode =
    digit (digitAt u.val 125) :: (List.range 25).map fun i => digit (digitAt u.val (120 - i * 5)) := by
  rw [encode, encodedLen, List.range_succ_eq_map, List.map_cons, List.map_map]
  congr 1

/-- Every identity survives its text form. -/
theorem fromStr_encode (u : Ulid) : fromStr u.encode = .ok u := by
  have hfirst : digitAt u.val 125 = u.val >>> 125 := by
    have hlt : u.val >>> 125 < 8 := by
      rw [Nat.shiftRight_eq_div_pow]
      have := u.lt
      omega
    rw [digitAt, show (0x1f : Nat) = 2 ^ 5 - 1 from rfl, Nat.and_two_pow_sub_one_eq_mod]
    exact Nat.mod_eq_of_lt (by omega)
  obtain ⟨b, hb, hdec⟩ := decodeDigit_digit _ (digitAt_lt u.val 125)
  have hlen := length_flatMap_digit ((List.range 25).map fun i => digitAt u.val (120 - i * 5))
    (by simp [digitAt_lt])
  rw [List.map_map, List.length_map, List.length_range] at hlen
  have hrest := decodeRest_digits u.lt 25 le_rfl
  have hle : ¬ u.val >>> 125 > 7 := by
    rw [Nat.shiftRight_eq_div_pow]
    have := u.lt
    omega
  rw [fromStr, encode_eq, List.flatMap_cons, hb]
  simp only [List.cons_append, List.nil_append, hdec]
  rw [if_neg (by rw [← Function.comp_def digit, hlen]; decide), hfirst, if_neg hle, hrest]
  simp only [Except.map, Nat.sub_self, Nat.shiftRight_zero, Nat.reduceMul,
    Nat.mod_eq_of_lt u.lt]

/-- The text of an identity has no line break. -/
theorem encode_oneLine (u : Ulid) : Text.OneLine u.encode := by
  have hdigit : ∀ d < 32, digit d ≠ '\n' ∧ digit d ≠ '\r' := by decide
  intro c hc
  obtain ⟨index, -, rfl⟩ := List.mem_map.1 hc
  exact hdigit _ (Nat.lt_succ_of_le Nat.and_le_right)

end Ulid

/-! ## Generation -/

/-- A monotonic ULID generator scoped to one journal. -/
structure MonotonicUlid where
  last : Option Ulid := none
deriving DecidableEq

inductive UlidGenerationError where
  | exhausted
deriving DecidableEq, Repr

/-- What one generation reads from outside: the clock, and the 80 bits of fresh entropy that
`Ulid::generate` supplies. -/
structure Tick where
  millis : Nat
  entropy : Nat
  entropy_lt : entropy < 2 ^ 80

namespace MonotonicUlid

/-- A generator whose next identity is greater than `floor`. -/
def seeded (floor : Option Ulid) : MonotonicUlid := ⟨floor⟩

def timestamp (u : Ulid) : Nat := u.val >>> 80

/-- The clamp of `generate` to the 48-bit timestamp. -/
def clamp (millis : Nat) : Nat := min millis (2 ^ 48 - 1)

/-- `generate`, with `generate_at` in line. -/
def generate (gen : MonotonicUlid) (tick : Tick) :
    Except UlidGenerationError (Ulid × MonotonicUlid) :=
  let fresh : Ulid := ⟨clamp tick.millis * 2 ^ 80 + tick.entropy, by
    have := tick.entropy_lt
    have : clamp tick.millis ≤ 2 ^ 48 - 1 := Nat.min_le_right _ _
    omega⟩
  match gen.last with
  | none => .ok (fresh, ⟨some fresh⟩)
  | some last =>
    if clamp tick.millis ≤ timestamp last then
      if h : last.val + 1 < 2 ^ 128 then
        .ok (⟨last.val + 1, h⟩, ⟨some ⟨last.val + 1, h⟩⟩)
      else .error .exhausted
    else .ok (fresh, ⟨some fresh⟩)

/-- `gen` has seen no identity above its own. -/
def Bounds (gen : MonotonicUlid) (ids : List Ulid) : Prop :=
  ∀ id ∈ ids, ∃ last, gen.last = some last ∧ id.val ≤ last.val

theorem generate_last {gen : MonotonicUlid} {id : Ulid} (h : gen.generate tick = .ok (id, gen')) :
    gen'.last = some id := by
  unfold generate at h
  split at h
  · cases h; rfl
  · split at h
    · split at h
      · cases h; rfl
      · cases h
    · cases h; rfl

theorem generate_gt {gen : MonotonicUlid} {id last : Ulid} (h : gen.generate tick = .ok (id, gen'))
    (hlast : gen.last = some last) : last.val < id.val := by
  unfold generate at h
  simp only [hlast] at h
  split at h
  · split at h
    · cases h
      exact Nat.lt_succ_self _
    · cases h
  · next hlt =>
    cases h
    simp only [timestamp, Nat.shiftRight_eq_div_pow] at hlt ⊢
    omega

/-- A generated identity is new, and the generator still bounds what it has handed out. -/
theorem Bounds.generate {gen : MonotonicUlid} {id : Ulid} (hb : gen.Bounds ids)
    (h : gen.generate tick = .ok (id, gen')) : id ∉ ids ∧ gen'.Bounds (ids ++ [id]) := by
  have hgt : ∀ i ∈ ids, i.val < id.val := by
    intro i hi
    obtain ⟨last, hlast, hle⟩ := hb i hi
    exact lt_of_le_of_lt hle (generate_gt h hlast)
  refine ⟨fun hid => lt_irrefl _ (hgt id hid), fun i hi => ⟨id, generate_last h, ?_⟩⟩
  rcases List.mem_append.1 hi with hi | hi
  · exact (hgt i hi).le
  · rw [List.mem_singleton.1 hi]

end MonotonicUlid

end OhMyPi
