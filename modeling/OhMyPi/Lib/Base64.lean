import Mathlib.Logic.Basic

/-! Base64 without padding: three bytes are four characters, and one or two trailing bytes are two or
three. What was encoded decodes to itself. -/

namespace OhMyPi

/-- The characters of the 64 values, and the values of characters. -/
structure Base64 where
  sym : Nat → Char
  val : Char → Option Nat
  val_sym : ∀ n < 64, val (sym n) = some n

namespace Base64

variable (base : Base64)

def encode : List UInt8 → List Char
  | [] => []
  | [a] => let x := a.toNat * 65536
    [base.sym (x / 262144), base.sym (x / 4096 % 64)]
  | [a, b] => let x := a.toNat * 65536 + b.toNat * 256
    [base.sym (x / 262144), base.sym (x / 4096 % 64), base.sym (x / 64 % 64)]
  | a :: b :: c :: rest => let x := a.toNat * 65536 + b.toNat * 256 + c.toNat
    base.sym (x / 262144) :: base.sym (x / 4096 % 64) :: base.sym (x / 64 % 64) ::
      base.sym (x % 64) :: encode rest

/-- A single trailing character, and a character that has no value, are refused. -/
def decode : List Char → Option (List UInt8)
  | [] => some []
  | [_] => none
  | [a, b] => do
    let x := (← base.val a) * 262144 + (← base.val b) * 4096
    return [.ofNat (x / 65536)]
  | [a, b, c] => do
    let x := (← base.val a) * 262144 + (← base.val b) * 4096 + (← base.val c) * 64
    return [.ofNat (x / 65536), .ofNat (x / 256)]
  | a :: b :: c :: d :: rest => do
    let x := (← base.val a) * 262144 + (← base.val b) * 4096 + (← base.val c) * 64 + (← base.val d)
    return .ofNat (x / 65536) :: .ofNat (x / 256) :: .ofNat x :: (← decode rest)

theorem ofNat_eq {n : Nat} {a : UInt8} (h : n % 256 = a.toNat) : UInt8.ofNat n = a := by
  rw [← UInt8.toNat_inj, UInt8.toNat_ofNat']
  exact h

theorem val_head {a x : Nat} (ha : a < 256) (hx : x < (a + 1) * 65536) :
    base.val (base.sym (x / 262144)) = some (x / 262144) := base.val_sym _ (by omega)

theorem val_mod (n : Nat) : base.val (base.sym (n % 64)) = some (n % 64) :=
  base.val_sym _ (Nat.mod_lt _ (by decide))

theorem decode_encode (b : List UInt8) : base.decode (base.encode b) = some b := by
  induction b using encode.induct with
  | case1 => rfl
  | case2 a =>
    have ha := a.toNat_lt
    have hhead := base.val_head ha (show a.toNat * 65536 < (a.toNat + 1) * 65536 by omega)
    simp only [encode, decode, hhead, val_mod, Option.bind_eq_bind, Option.bind_some, Option.pure_def]
    rw [ofNat_eq (a := a) (by omega)]
  | case3 a b =>
    have ha := a.toNat_lt
    have hb := b.toNat_lt
    have hhead := base.val_head ha
      (show a.toNat * 65536 + b.toNat * 256 < (a.toNat + 1) * 65536 by omega)
    simp only [encode, decode, hhead, val_mod, Option.bind_eq_bind, Option.bind_some, Option.pure_def]
    rw [ofNat_eq (a := a) (by omega), ofNat_eq (a := b) (by omega)]
  | case4 a b c rest ih =>
    have ha := a.toNat_lt
    have hb := b.toNat_lt
    have hc := c.toNat_lt
    have hhead := base.val_head ha
      (show a.toNat * 65536 + b.toNat * 256 + c.toNat < (a.toNat + 1) * 65536 by omega)
    simp only [encode, decode, hhead, val_mod, ih, Option.bind_eq_bind, Option.bind_some,
      Option.pure_def]
    rw [ofNat_eq (a := a) (by omega), ofNat_eq (a := b) (by omega), ofNat_eq (a := c) (by omega)]

/-- Every character of an encoding stands for a value. -/
theorem exists_of_mem_encode {b : List UInt8} {c : Char} (h : c ∈ base.encode b) :
    ∃ n, n < 64 ∧ c = base.sym n := by
  induction b using encode.induct with
  | case1 => cases h
  | case2 a =>
    have ha := a.toNat_lt
    simp only [encode, List.mem_cons, List.not_mem_nil, or_false] at h
    rcases h with rfl | rfl
    · exact ⟨_, by omega, rfl⟩
    · exact ⟨_, by omega, rfl⟩
  | case3 a b =>
    have ha := a.toNat_lt
    have hb := b.toNat_lt
    simp only [encode, List.mem_cons, List.not_mem_nil, or_false] at h
    rcases h with rfl | rfl | rfl
    · exact ⟨_, by omega, rfl⟩
    · exact ⟨_, by omega, rfl⟩
    · exact ⟨_, by omega, rfl⟩
  | case4 a b c rest ih =>
    have ha := a.toNat_lt
    have hb := b.toNat_lt
    have hc := c.toNat_lt
    simp only [encode, List.mem_cons] at h
    rcases h with rfl | rfl | rfl | rfl | h
    · exact ⟨_, by omega, rfl⟩
    · exact ⟨_, by omega, rfl⟩
    · exact ⟨_, by omega, rfl⟩
    · exact ⟨_, by omega, rfl⟩
    · exact ih h

end Base64

end OhMyPi
