import Mathlib.Data.List.Sort
import Mathlib.Data.Prod.Lex
import Mathlib.Order.OrderDual
import OhMyPi.Accounts.Windows
import OhMyPi.Lib.OrdMap

/-! Selection of an account (`ai/src/account/pool.rs`): which accounts of the provider may serve a
request now, when the others can, and which one is taken. -/

namespace OhMyPi.Accounts

/-! ## State and requests -/

section

variable (Id Principal Provider Route Time : Type)

structure AccountRoutingContext where
  account : Option Id := none
  principal : Option Principal := none
  credentialGeneration : Option Nat := none
  project : Option Str := none
  tenant : Option Str := none
  organization : Option Str := none
  region : Option Str := none

structure AccountRecord where
  account : Id
  principal : Principal
  provider : Provider
  routes : List Route
  enabled : Bool
  credentialGeneration : Nat
  routing : AccountRoutingContext Id Principal := {}

inductive CooldownReason
  | credentialRejected
  | accountDisabled
  | health
  | modelPolicy
  deriving DecidableEq

structure Cooldown where
  until_ : Time
  reason : CooldownReason

inductive QuotaReservePolicy
  | disabled
  | fallbackPercent (percent : Nat)
  | failClosedPercent (percent : Nat)

/-- Affinities and names are left out. Accounts stand under their own ids. -/
structure PoolState [LinearOrder Id] where
  accounts : OrdMap Id (AccountRecord Id Principal Provider Route)
  keyed : ∀ entry ∈ accounts.entries, entry.2.account = entry.1
  cooldowns : Id → Option (Cooldown Time)
  routeCooldowns : Id → Route → Option (Cooldown Time)
  /-- The rejected generations. -/
  rejections : Id → Option Nat
  rate : Id → Option (RateState Time)
  quota : Id → Option (QuotaState Time)
  quotaReserve : QuotaReservePolicy

structure RotationPolicy where
  allowAccountChange : Bool := true
  preservePrincipal : Bool := false

inductive AccountPin
  | account (id : Id)
  | unresolved

structure AccountSelectionRequest where
  provider : Provider
  route : Route
  affinity : Option Principal := none
  previousAccount : Option Id := none
  previousPrincipal : Option Principal := none
  rotate : Bool := false
  rotation : RotationPolicy := {}
  now : Time
  quotaScope : Option Str := none
  pin : Option (AccountPin Id) := none

inductive Eligibility
  | eligible
  | disabled
  | routeIneligible
  | credentialRejected (rejectedGeneration : Nat)
  | cooldown (time : Time) (reason : CooldownReason)
  | rateLimited (time : Option Time)
  | quotaExhausted (resetAt : Option Time)
  | quotaReserved (remaining : Option Nat) (percent : Nat)
  | rotationForbidden
  | principalMismatch
  | previousAccount
  | notPinned
  deriving DecidableEq

structure CandidateEvidence where
  account : Id
  principal : Principal
  eligibility : Eligibility Time
  quotaRemaining : Option Nat
  rate : Availability Time
  quota : Availability Time
  eligibleAt : Option Time
  affinityMatch : Bool
  previousMatch : Bool

structure SelectionReceipt where
  provider : Provider
  route : Route
  selectedAt : Time
  candidates : List (CandidateEvidence Id Principal Time)
  retryAt : Option Time

structure AccountChangeEvidence where
  previousAccount : Option Id
  previousPrincipal : Option Principal
  selectedAccount : Id
  selectedPrincipal : Principal
  selectedAt : Time
  invalidatesAccountBoundSession : Bool

structure AccountSelection where
  record : AccountRecord Id Principal Provider Route
  receipt : SelectionReceipt Id Principal Provider Route Time
  accountChange : AccountChangeEvidence Id Principal Time
  routing : AccountRoutingContext Id Principal

structure AccountPoolError where
  receipt : SelectionReceipt Id Principal Provider Route Time
  reservePolicy : Option QuotaReservePolicy

end

def QuotaReservePolicy.percent : QuotaReservePolicy → Option Nat
  | .disabled => none
  | .fallbackPercent percent | .failClosedPercent percent => some (min percent 100)

/-! ## Eligibility -/

section

variable {Id Principal Provider Route Time : Type}

def AccountRecord.routingContext (record : AccountRecord Id Principal Provider Route) :
    AccountRoutingContext Id Principal :=
  { record.routing with
    account := some record.account
    principal := some record.principal
    credentialGeneration := some record.credentialGeneration }

variable [LinearOrder Id] [DecidableEq Principal] [DecidableEq Provider] [DecidableEq Route] [LinearOrder Time]

variable (state : PoolState Id Principal Provider Route Time)
variable (record : AccountRecord Id Principal Provider Route)
variable (request : AccountSelectionRequest Id Principal Provider Route Time)

def previousMatch : Bool := request.previousAccount = some record.account

def affinityMatch : Bool := request.affinity = some record.principal

/-- The part of `eligibility` that does not look at the clock. -/
def standing : Option (Eligibility Time) :=
  let pinned : Bool := match request.pin with
    | some (.account id) => id = record.account
    | some .unresolved => false
    | none => true
  if !pinned then some .notPinned
  else if !record.enabled then some .disabled
  else if request.route ∉ record.routes then some .routeIneligible
  else if request.rotate && previousMatch record request then some .previousAccount
  else if request.previousAccount.isSome && !request.rotation.allowAccountChange &&
      !previousMatch record request then
    some .rotationForbidden
  else if request.rotation.preservePrincipal &&
      request.previousPrincipal.any fun principal => principal ≠ record.principal then
    some .principalMismatch
  else
    (state.rejections record.account).bind fun generation =>
      if record.credentialGeneration ≤ generation then some (.credentialRejected generation) else none

/-- A cooldown that has not passed. -/
def cooling (now : Time) (cooldown : Option (Cooldown Time)) : Option (Cooldown Time) :=
  cooldown.filter fun cooldown => now < cooldown.until_

def quotaAvailability : Availability Time :=
  ((state.quota record.account).map (·.availabilityScoped request.now request.quotaScope)).getD .available

def rateAvailability : Availability Time :=
  ((state.rate record.account).map (·.availability request.now)).getD .available

def quotaRemaining : Option Nat :=
  (state.quota record.account).bind (·.minimumRemainingScoped request.now request.quotaScope)

/-- The percentage of the reserve, when the quota is below it. -/
def reserved : Option Nat :=
  state.quotaReserve.percent.filter fun percent =>
    (state.quota record.account).any (·.belowRemainingPercentScoped request.now percent request.quotaScope)

def eligibility : Eligibility Time :=
  match standing state record request with
  | some blocker => blocker
  | none =>
    match cooling request.now (state.cooldowns record.account) with
    | some cooldown => .cooldown cooldown.until_ cooldown.reason
    | none =>
      match cooling request.now (state.routeCooldowns record.account request.route) with
      | some cooldown => .cooldown cooldown.until_ cooldown.reason
      | none =>
        match quotaAvailability state record request with
        | .delayed time => .quotaExhausted (some time)
        | .exhaustedUnknownReset => .quotaExhausted none
        | .available =>
          match reserved state record request with
          | some percent => .quotaReserved (quotaRemaining state record request) percent
          | none =>
            match rateAvailability state record request with
            | .available => .eligible
            | .delayed time => .rateLimited (some time)
            | .exhaustedUnknownReset => .rateLimited none

def Eligibility.isTemporary : Eligibility Time → Bool
  | .cooldown _ _ | .rateLimited _ | .quotaExhausted _ => true
  | _ => false

/-- A later instant, when there is one. -/
def later (readyAt : Time) (time : Option Time) : Time := time.elim readyAt (max readyAt)

def candidateEligibleAt : Option Time :=
  let eligibility := eligibility state record request
  if eligibility = .eligible then some request.now
  else if !eligibility.isTemporary then none
  else
    let readyAt := later request.now ((state.cooldowns record.account).map (·.until_))
    let readyAt := later readyAt ((state.routeCooldowns record.account request.route).map (·.until_))
    match rateAvailability state record request with
    | .exhaustedUnknownReset => none
    | rate =>
      let readyAt := match rate with
        | .delayed time => max readyAt time
        | _ => readyAt
      match quotaAvailability state record request with
      | .available => some readyAt
      | .delayed time => some (max readyAt time)
      | .exhaustedUnknownReset => none

/-! ## Selection -/

def evidence : CandidateEvidence Id Principal Time where
  account := record.account
  principal := record.principal
  eligibility := eligibility state record request
  quotaRemaining := quotaRemaining state record request
  rate := rateAvailability state record request
  quota := quotaAvailability state record request
  eligibleAt := candidateEligibleAt state record request
  affinityMatch := affinityMatch record request
  previousMatch := previousMatch record request

/-- The previous account first, then the preferred principal; then known quotas, the largest first; then
the account id. -/
def rank : Nat ×ₗ Nat ×ₗ Natᵒᵈ ×ₗ Id :=
  let remaining := quotaRemaining state record request
  toLex (if previousMatch record request then 0 else if affinityMatch record request then 1 else 2,
    toLex (if remaining.isNone then 1 else 0,
      toLex (OrderDual.toDual (remaining.getD 0), record.account)))

/-- The accounts of the provider, in the order of their ids. -/
def candidates : List (AccountRecord Id Principal Provider Route) :=
  (state.accounts.entries.map Prod.snd).filter fun record => record.provider = request.provider

def receipt : SelectionReceipt Id Principal Provider Route Time :=
  let evidences := (candidates state request).map fun record => evidence state record request
  { provider := request.provider
    route := request.route
    selectedAt := request.now
    candidates := evidences
    retryAt := ((evidences.filterMap (·.eligibleAt)).filter fun time => request.now < time).min? }

def AccountChangeEvidence.new (previousAccount : Option Id) (previousPrincipal : Option Principal)
    (selectedAccount : Id) (selectedPrincipal : Principal) (selectedAt : Time) :
    AccountChangeEvidence Id Principal Time where
  previousAccount
  previousPrincipal
  selectedAccount
  selectedPrincipal
  selectedAt
  invalidatesAccountBoundSession := previousAccount.any (· ≠ selectedAccount)

/-- The ranks of the eligible candidates, which end in the account. The place in the receipt, which ends
those of the source, never decides. -/
def ranked : List (Nat ×ₗ Nat ×ₗ Natᵒᵈ ×ₗ Id) :=
  ((candidates state request).filter fun record => eligibility state record request = .eligible).map
    fun record => rank state record request

def Eligibility.isReserved : Eligibility Time → Bool
  | .quotaReserved _ _ => true
  | _ => false

def select : Except (AccountPoolError Id Principal Provider Route Time)
    (AccountSelection Id Principal Provider Route Time) :=
  let receipt := receipt state request
  let reservePolicy :=
    if receipt.candidates.any fun candidate => candidate.eligibility.isReserved then
      some state.quotaReserve
    else none
  match (ranked state request).insertionSort (· ≤ ·) with
  | [] => .error ⟨receipt, reservePolicy⟩
  | best :: _ =>
    match state.accounts.get? (ofLex (ofLex (ofLex best).2).2).2 with
    | none => .error ⟨receipt, reservePolicy⟩
    | some record =>
      .ok {
        record
        receipt
        accountChange := .new request.previousAccount request.previousPrincipal record.account
          record.principal request.now
        routing := record.routingContext }

end

end OhMyPi.Accounts
