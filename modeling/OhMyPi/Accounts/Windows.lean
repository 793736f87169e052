import Mathlib.Order.WithBot
import Mathlib.Data.List.SplitOn
import Mathlib.Algebra.Order.Ring.Nat

/-! Rate and quota windows of an account (`ai/src/account/rate.rs`, `ai/src/account/quota.rs`): what the
provider reported about each window, whether it blocks an attempt at an instant, and until when. -/

namespace OhMyPi.Accounts

abbrev Str := List Char

/-- One observation, with the time it was made. -/
structure Sample (Time α : Type) where
  value : α
  observedAt : Time
  deriving DecidableEq

/-- `RateAvailability` and `QuotaAvailability`. `delayed` is the `Exhausted` of the latter. -/
inductive Availability (Time : Type)
  | available
  | delayed (time : Time)
  | exhaustedUnknownReset
  deriving DecidableEq

/-- Receipts and the limit are left out. -/
structure RateWindow (Time : Type) where
  remaining : Option (Sample Time Nat) := none
  resetAt : Option (Sample Time Time) := none
  retryAt : Option (Sample Time Time) := none

/-- Receipts and the amount consumed are left out. -/
structure QuotaWindow (Time : Type) where
  remaining : Option (Sample Time Nat) := none
  limit : Option (Sample Time Nat) := none
  resetAt : Option (Sample Time Time) := none
  exhausted : Option (Sample Time Bool) := none

/-- The windows under their names, in the order of these. -/
abbrev RateState (Time : Type) := List (Str × RateWindow Time)

abbrev QuotaState (Time : Type) := List (Str × QuotaWindow Time)

/-- `provider:scope:window` has a scope, `provider:window` has none. -/
def scope (id : Str) : Option Str :=
  match id.splitOn ':' with
  | _ :: scope :: _ :: _ => some scope
  | _ => none

section

variable {Time : Type} [LinearOrder Time]

namespace RateWindow

variable (window : RateWindow Time)

/-- Nothing remains. -/
def isExhausted : Bool := window.remaining.any fun sample => sample.value == 0

def availability (now : Time) : Availability Time :=
  let retry := window.retryAt.bind fun sample => if now < sample.value then some sample.value else none
  -- The inner `none` is a reset that was not reported.
  let exhaustedUntil : Option (Option Time) :=
    if window.isExhausted then
      match window.resetAt with
      | some sample => if now < sample.value then some (some sample.value) else none
      | none => some none
    else none
  match retry, exhaustedUntil with
  | some retry, some (some reset) => .delayed (max retry reset)
  | some time, _ => .delayed time
  | none, some (some time) => .delayed time
  | none, some none => .exhaustedUnknownReset
  | none, none => .available

end RateWindow

namespace QuotaWindow

variable (window : QuotaWindow Time)

def isExhausted : Bool :=
  match window.exhausted, window.remaining with
  | some explicit, some remaining =>
    if remaining.observedAt ≤ explicit.observedAt then explicit.value else remaining.value == 0
  | none, some remaining => remaining.value == 0
  | some explicit, none => explicit.value
  | none, none => false

def availability (now : Time) : Availability Time :=
  if window.isExhausted then
    match window.resetAt with
    | some sample => if now < sample.value then .delayed sample.value else .available
    | none => .exhaustedUnknownReset
  else .available

/-- The remaining amount was seen before a reset that has passed. -/
def isStale (now : Time) (remaining : Sample Time Nat) : Bool :=
  window.resetAt.any fun reset => reset.value ≤ now && remaining.observedAt < reset.value

/-- The known amount that remains at an instant. -/
def remainingAt (now : Time) : Option Nat :=
  window.remaining.bind fun remaining =>
    if window.isStale now remaining then none else some remaining.value

def isBelow (now : Time) (percent : Nat) : Bool :=
  match window.remaining, window.limit with
  | some remaining, some limit =>
    if limit.value == 0 || window.isStale now remaining then false
    else remaining.value * 100 < limit.value * percent
  | _, _ => false

end QuotaWindow

/-- The loop over the windows: the latest reset, unless one is not known. `time` is the latest so far. -/
def latest : Option Time → List (Availability Time) → Availability Time
  | none, [] => .available
  | some time, [] => .delayed time
  | time, .available :: rest => latest time rest
  | none, .delayed candidate :: rest => latest (some candidate) rest
  | some current, .delayed candidate :: rest => latest (some (max current candidate)) rest
  | _, .exhaustedUnknownReset :: _ => .exhaustedUnknownReset

def RateState.availability (rate : RateState Time) (now : Time) : Availability Time :=
  latest none (rate.map fun window => window.2.availability now)

namespace QuotaState

variable (quota : QuotaState Time)

/-- Windows of another meter than that of the request do not count. -/
def inScope (meter : Option Str) (id : Str) : Bool :=
  !meter.any fun name => (scope id).any fun window => window ≠ name

def availabilityScoped (now : Time) (meter : Option Str) : Availability Time :=
  latest none ((quota.filter fun window => inScope meter window.1).map fun window =>
    window.2.availability now)

def minimumRemainingScoped (now : Time) (meter : Option Str) : Option Nat :=
  let hasScoped := meter.any fun name => quota.any fun window => scope window.1 = some name
  let ids := (quota.map Prod.fst).filter fun id => scope id = meter
  let primary := ids.any fun id => ":primary".toList.isSuffixOf id
  let secondary := ids.any fun id => ":secondary".toList.isSuffixOf id
  if hasScoped && secondary && !primary then none
  else
    let windows := quota.filter fun window =>
      meter.isNone || if hasScoped then scope window.1 = meter else (scope window.1).isNone
    (windows.filterMap fun window => window.2.remainingAt now).min?

def belowRemainingPercentScoped (now : Time) (percent : Nat) (meter : Option Str) : Bool :=
  quota.any fun window => inScope meter window.1 && window.2.isBelow now (min percent 100)

end QuotaState

end

end OhMyPi.Accounts
