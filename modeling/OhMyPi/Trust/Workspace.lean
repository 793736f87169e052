import Mathlib.Data.List.Infix

/-! Operator trust in workspaces (`ext/src/workspace_trust.rs`) and the writers of its rows in the
local grant file (`ext/src/trust.rs`). Each writer runs under the file's lock from the read to the
write, so it is a function of the rows. -/

namespace OhMyPi.Trust

inductive Component where
  | rootDir
  | curDir
  | parentDir
  | normal (name : List UInt8)
  deriving DecidableEq

/-- A path as `Path::components` yields it, which is also how paths are compared. -/
abbrev Path := List Component

namespace Path

/-- `Path::starts_with`. -/
def startsWith (path base : Path) : Bool := base.isPrefixOf path

def isAbsolute (path : Path) : Bool := path.head? = some .rootDir

/-- Whether `Path::parent` yields anything. -/
def hasParent (path : Path) : Bool :=
  match path.getLast? with
  | none | some .rootDir => false
  | _ => true

/-- Absolute, with normal components only. -/
def canonicalShape (path : Path) : Bool :=
  path.isAbsolute && path.all fun component =>
    match component with
    | .rootDir | .normal _ => true
    | _ => false

end Path

/-- Lifetime of a grant, from the shortest to the longest. -/
inductive GrantDuration where
  | once
  | session
  | persistent
  deriving DecidableEq

def GrantDuration.rank : GrantDuration → Nat
  | .once => 0
  | .session => 1
  | .persistent => 2

/-- `Option::max` of durations, the later one of two equal ones. -/
def maxDuration : Option GrantDuration → Option GrantDuration → Option GrantDuration
  | none, b => b
  | a, none => a
  | some a, some b => if a.rank ≤ b.rank then some b else some a

inductive TrustChannel where
  | interactive
  | cli
  | flag
  | rpc
  deriving DecidableEq

inductive TrustScope where
  | exact
  | subtree
  | pin
  | deny
  deriving DecidableEq

inductive GrantScope where
  | exact
  | subtree
  deriving DecidableEq

inductive TrustBinding (Digest : Type) where
  | exact (inputsDigest : Digest)
  | subtree
  | pin (under : Path) (inputsDigest : Digest)
  | deny
  deriving DecidableEq

inductive TrustSlot where
  | decision
  | subtree
  deriving DecidableEq

def TrustBinding.slot : TrustBinding Digest → TrustSlot
  | .subtree => .subtree
  | _ => .decision

def TrustBinding.scope : TrustBinding Digest → TrustScope
  | .exact _ => .exact
  | .subtree => .subtree
  | .pin _ _ => .pin
  | .deny => .deny

/-- One `[[workspace_trust]]` row, without the time it was recorded at. -/
structure WorkspaceTrustGrant (Digest : Type) where
  workspace : Path
  binding : TrustBinding Digest
  grantedBy : TrustChannel
  duration : GrantDuration
  deriving DecidableEq

def WorkspaceTrustGrant.sameSlot (row other : WorkspaceTrustGrant Digest) : Bool :=
  row.workspace = other.workspace ∧ row.binding.slot = other.binding.slot

inductive CanonicalHome where
  | resolved (home : Path)
  | unresolved

def CanonicalHome.subtreeTooBroad (root : Path) : CanonicalHome → Bool
  | .unresolved => true
  | .resolved home => !root.canonicalShape || !root.hasParent || home.startsWith root

inductive TrustDecision (Digest : Type) where
  | trusted (duration : GrantDuration)
  | pinUnderSubtree (root : Path) (duration : GrantDuration)
  | digestChanged (granted current : Digest)
  | denied
  | untrusted
  deriving DecidableEq

variable {Digest : Type} [DecidableEq Digest]

def liveSubtreeAt (rows : List (WorkspaceTrustGrant Digest)) (root : Path) (home : CanonicalHome) :
    Bool :=
  !home.subtreeTooBroad root && rows.any fun row => row.binding = .subtree ∧ row.workspace = root

/-- The digest a row of the workspace decides by, if it decides. -/
def decidingDigest (rows : List (WorkspaceTrustGrant Digest)) (trustKey : Path)
    (home : CanonicalHome) : TrustBinding Digest → Option Digest
  | .exact inputsDigest => some inputsDigest
  | .pin under inputsDigest =>
    if trustKey.startsWith under && liveSubtreeAt rows under home then some inputsDigest else none
  | .subtree => none
  | .deny => none

/-- The loop of `evaluate` over the rows of the workspace itself; `none` is its early return at a
denial. -/
def scanOwn (rows : List (WorkspaceTrustGrant Digest)) (trustKey : Path) (current : Digest)
    (home : CanonicalHome) : List (WorkspaceTrustGrant Digest) → Option GrantDuration →
      Option Digest → Option (Option GrantDuration × Option Digest)
  | [], trusted, granted => some (trusted, granted)
  | row :: rest, trusted, granted =>
    if row.workspace ≠ trustKey then scanOwn rows trustKey current home rest trusted granted
    else if row.binding = .deny then none
    else
      match decidingDigest rows trustKey home row.binding with
      | none => scanOwn rows trustKey current home rest trusted granted
      | some digest =>
        if digest = current then
          scanOwn rows trustKey current home rest (maxDuration trusted (some row.duration)) granted
        else scanOwn rows trustKey current home rest trusted (granted.or (some digest))

/-- `Iterator::max_by_key` over the length of the workspace path: the last of the longest. -/
def mostSpecific : List (WorkspaceTrustGrant Digest) → Option (WorkspaceTrustGrant Digest) →
    Option (WorkspaceTrustGrant Digest)
  | [], best => best
  | row :: rest, none => mostSpecific rest (some row)
  | row :: rest, some best =>
    mostSpecific rest (if best.workspace.length ≤ row.workspace.length then some row else some best)

def evaluate (rows : List (WorkspaceTrustGrant Digest)) (trustKey : Path) (current : Digest)
    (home : CanonicalHome) : TrustDecision Digest :=
  match scanOwn rows trustKey current home rows none none with
  | none => .denied
  | some (some duration, _) => .trusted duration
  | some (none, some granted) => .digestChanged granted current
  | some (none, none) =>
    let covering := rows.filter fun row => row.binding = .subtree &&
      trustKey.startsWith row.workspace && !home.subtreeTooBroad row.workspace
    match mostSpecific covering none with
    | none => .untrusted
    | some row => .pinUnderSubtree row.workspace row.duration

inductive WorkspaceTrustRefusal (Digest : Type) where
  | scope (scope : TrustScope)
  | stale (workspace : Path) (current : TrustDecision Digest)
  | noLiveSubtree (workspace under : Path)
  | denied (workspace : Path)
  deriving DecidableEq

/-- What a writer answers when it records nothing. -/
inductive PersistError (Digest : Type) where
  | sessionOnly
  | refused (refusal : WorkspaceTrustRefusal Digest)
  deriving DecidableEq

/-- The comparison of the decision that was asked about with the decision under the lock. -/
def checkCurrent (rows : List (WorkspaceTrustGrant Digest)) (workspace : Path) (inputsDigest : Digest)
    (answered : TrustDecision Digest) (home : CanonicalHome) :
    Except (WorkspaceTrustRefusal Digest) Unit :=
  let current := evaluate rows workspace inputsDigest home
  if current = answered then .ok () else .error (.stale workspace current)

def WorkspaceTrustGrant.checkAnswer (grant : WorkspaceTrustGrant Digest)
    (rows : List (WorkspaceTrustGrant Digest)) (answered : TrustDecision Digest)
    (home : CanonicalHome) : Except (WorkspaceTrustRefusal Digest) Unit :=
  match grant.binding with
  | .exact inputsDigest => checkCurrent rows grant.workspace inputsDigest answered home
  | .pin under inputsDigest =>
    if rows.any fun row => row.workspace = grant.workspace ∧ row.binding = .deny then
      .error (.denied grant.workspace)
    else if !grant.workspace.startsWith under || !liveSubtreeAt rows under home then
      .error (.noLiveSubtree grant.workspace under)
    else checkCurrent rows grant.workspace inputsDigest answered home
  | .subtree => .error (.scope .subtree)
  | .deny => .error (.scope .deny)

/-- The rows of the file that count: only persistent ones are read, and only these are written. -/
def durable (rows : List (WorkspaceTrustGrant Digest)) : List (WorkspaceTrustGrant Digest) :=
  rows.filter fun row => row.duration = .persistent

def persistWorkspaceTrust (file : List (WorkspaceTrustGrant Digest))
    (grant : WorkspaceTrustGrant Digest) (answered : TrustDecision Digest) (home : CanonicalHome) :
    Except (PersistError Digest) (List (WorkspaceTrustGrant Digest)) :=
  if grant.duration ≠ .persistent then .error .sessionOnly
  else
    let rows := durable file
    match grant.checkAnswer rows answered home with
    | .error refusal => .error (.refused refusal)
    | .ok () => .ok (durable (rows.filter (fun existing => !existing.sameSlot grant) ++ [grant]))

def persistWorkspaceSubtree (file : List (WorkspaceTrustGrant Digest))
    (grant : WorkspaceTrustGrant Digest) :
    Except (PersistError Digest) (List (WorkspaceTrustGrant Digest)) :=
  if grant.duration ≠ .persistent then .error .sessionOnly
  else if grant.binding ≠ .subtree then .error (.refused (.scope grant.binding.scope))
  else
    let rows := durable file
    let anew := !rows.any fun existing => existing.sameSlot grant
    let kept := rows.filter fun existing =>
      match existing.binding with
      | .pin under _ => !anew || under ≠ grant.workspace
      | _ => !existing.sameSlot grant
    .ok (durable (kept ++ [grant]))

def persistWorkspaceDeny (file : List (WorkspaceTrustGrant Digest))
    (grant : WorkspaceTrustGrant Digest) :
    Except (PersistError Digest) (List (WorkspaceTrustGrant Digest)) :=
  if grant.duration ≠ .persistent then .error .sessionOnly
  else if grant.binding ≠ .deny then .error (.refused (.scope grant.binding.scope))
  else .ok (durable ((durable file).filter (fun existing => !existing.sameSlot grant) ++ [grant]))

/-- Whether a row is recorded under a path, as its workspace or as the root of its pin. -/
def names (rows : List (WorkspaceTrustGrant Digest)) (spelling : Path) : Bool :=
  rows.any fun row => row.workspace = spelling ||
    match row.binding with
    | .pin under _ => under = spelling
    | _ => false

def revokedSpelling (rows : List (WorkspaceTrustGrant Digest)) (canonical : Option Path)
    (given : Path) : Option Path :=
  ((canonical.toList ++ [given]).find? (names rows)).or canonical

/-- The rows without the workspace's own exact or pinned decision. -/
def withoutDecision (rows : List (WorkspaceTrustGrant Digest)) (workspace : Path) :
    List (WorkspaceTrustGrant Digest) :=
  rows.filter fun row => row.workspace ≠ workspace ||
    match row.binding with
    | .exact _ | .pin _ _ => false
    | _ => true

/-- Removes the workspace's own decision and denies it when a subtree row covers it. -/
def revokeExact (rows : List (WorkspaceTrustGrant Digest)) (workspace : Path)
    (revokedBy : TrustChannel) : List (WorkspaceTrustGrant Digest) :=
  let kept := withoutDecision rows workspace
  let covered := kept.any fun row => row.binding.slot = .subtree && workspace.startsWith row.workspace
  let denied := kept.any fun row => row.workspace = workspace ∧ row.binding = .deny
  if covered && !denied then
    kept ++ [{ workspace, binding := .deny, grantedBy := revokedBy, duration := .persistent }]
  else kept

/-- Removes the subtree row at a root and every pin it admitted. -/
def revokeSubtree (rows : List (WorkspaceTrustGrant Digest)) (workspace : Path) :
    List (WorkspaceTrustGrant Digest) :=
  rows.filter fun row =>
    match row.binding with
    | .subtree => row.workspace ≠ workspace
    | .pin under _ => under ≠ workspace
    | _ => true

/-- The rows left and how many trusting rows were removed. -/
def revokeWorkspaceTrust (file : List (WorkspaceTrustGrant Digest)) (canonical : Option Path)
    (given : Path) (scope : GrantScope) (revokedBy : TrustChannel) :
    List (WorkspaceTrustGrant Digest) × Nat :=
  let rows := durable file
  match revokedSpelling rows canonical given with
  | none => (rows, 0)
  | some workspace =>
    match scope with
    | .exact => (durable (revokeExact rows workspace revokedBy),
      rows.length - (withoutDecision rows workspace).length)
    | .subtree => (durable (revokeSubtree rows workspace),
      rows.length - (revokeSubtree rows workspace).length)

end OhMyPi.Trust
