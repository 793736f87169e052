import OhMyPi.Docserver.Paths
import OhMyPi.Lib.KeyedList

/-! The workspace lease table of the document server (`docserver/environment.rs`). Its four maps are
changed under one lock; the connections that use it, the guards of running mutations and the
connections that are being dropped make up the system around it. -/

namespace OhMyPi.Docserver

open KeyedList

abbrev Bytes16 := Vector UInt8 16

/-- A hash map is read in any order. -/
structure Iteration where
  iter : {α : Type} → List α → List α
  perm : ∀ {α : Type} (l : List α), (iter l).Perm l

def Iteration.id : Iteration := ⟨fun l => l, fun l => .refl l⟩

deriving instance Ord for Component

def pathLe (a b : PathBuf) : Bool := (compare a b).isLE

/-- `path.starts_with(other) || other.starts_with(path)`. -/
def overlaps (path other : PathBuf) : Bool := other.isPrefixOf path || path.isPrefixOf other

structure WorkspaceLeaseConflict where
  path : PathBuf
  activeLeaseId : Bytes16
deriving DecidableEq

structure WorkspaceLeaseOutcome where
  leaseId : Option Bytes16
  conflicts : List WorkspaceLeaseConflict
deriving DecidableEq

structure WorkspaceLeaseRecord where
  owner : Bytes16
  paths : List PathBuf
deriving DecidableEq

structure WorkspaceLeaseState where
  leases : List (Bytes16 × WorkspaceLeaseRecord) := []
  byPath : List (PathBuf × Bytes16) := []
  mutations : List (PathBuf × Bytes16 × Nat) := []
  ledger : List ((Bytes16 × Bytes16) × WorkspaceLeaseOutcome) := []

structure WorkspaceMutationGuard where
  owner : Bytes16
  paths : List PathBuf
deriving DecidableEq

inductive LeaseError
  | held (target : PathBuf)
  | inFlight (target : PathBuf)
  /-- Indexing the leases with an id they do not have, where the source panics. -/
  | missing (id : Bytes16)
deriving DecidableEq

/-- The reasons of `Error::InvalidTarget`. -/
def LeaseError.reason : LeaseError → Option String
  | .held _ => some "path is held by an exclusive workspace lease"
  | .inFlight _ => some "path has an in-flight workspace mutation"
  | .missing _ => none

/-- The loop of `dedupBy`, with the key of the last element kept. -/
def dedupFrom {α β : Type} [DecidableEq β] (key : α → β) : Option β → List α → List α
  | _, [] => []
  | last, a :: l =>
    if last = some (key a) then dedupFrom key last l else a :: dedupFrom key (some (key a)) l

/-- `Vec::dedup_by_key`. -/
def dedupBy {α β : Type} [DecidableEq β] (key : α → β) (l : List α) : List α := dedupFrom key none l

namespace WorkspaceLeaseState

/-- `check_paths` for one path and one reserved path. -/
def checkReserved (s : WorkspaceLeaseState) (it : Iteration) (owner : Option Bytes16) (path : PathBuf)
    (reserved : PathBuf × Bytes16) : Except LeaseError Unit :=
  if overlaps path reserved.1 then
    match first reserved.2 s.leases with
    | none => .error (.missing reserved.2)
    | some lease =>
      let mutationOwner := (it.iter s.mutations).findSome? fun m =>
        if overlaps path m.1 then some m.2.1 else none
      if some lease.owner ≠ owner.or mutationOwner then .error (.held path) else .ok ()
  else .ok ()

def checkPaths (s : WorkspaceLeaseState) (it : Iteration) (owner : Option Bytes16)
    (paths : List PathBuf) : Except LeaseError Unit :=
  paths.forM fun path => (it.iter s.byPath).forM (s.checkReserved it owner path)

/-- The first loop of `begin_mutation` for one path. -/
def refuseReserved (s : WorkspaceLeaseState) (owner : Bytes16) (path : PathBuf)
    (reserved : PathBuf × Bytes16) : Except LeaseError Unit :=
  if overlaps path reserved.1 then
    match first reserved.2 s.leases with
    | none => .error (.missing reserved.2)
    | some lease => if lease.owner ≠ owner then .error (.held path) else .ok ()
  else .ok ()

/-- The second loop of `begin_mutation` for one path. -/
def refuseMutating (owner : Bytes16) (path : PathBuf) (m : PathBuf × Bytes16 × Nat) :
    Except LeaseError Unit :=
  if overlaps path m.1 && m.2.1 ≠ owner then .error (.inFlight path) else .ok ()

/-- One more mutation of a path. An entry that is there keeps its owner. -/
def countMutation (owner : Bytes16) (mutations : List (PathBuf × Bytes16 × Nat)) (path : PathBuf) :
    List (PathBuf × Bytes16 × Nat) :=
  let entry := (first path mutations).getD (owner, 0)
  assign path (entry.1, entry.2 + 1) mutations

def beginMutation (s : WorkspaceLeaseState) (it : Iteration) (owner : Bytes16) (paths : List PathBuf) :
    Except LeaseError (WorkspaceMutationGuard × WorkspaceLeaseState) := do
  let paths := dedupBy (fun path => path) (paths.insertionSort fun a b => pathLe a b)
  paths.forM fun path => do
    (it.iter s.byPath).forM (s.refuseReserved owner path)
    (it.iter s.mutations).forM (refuseMutating owner path)
  return (⟨owner, paths⟩, { s with mutations := paths.foldl (countMutation owner) s.mutations })

/-- One mutation of a path less. -/
def uncountMutation (owner : Bytes16) (mutations : List (PathBuf × Bytes16 × Nat)) (path : PathBuf) :
    List (PathBuf × Bytes16 × Nat) :=
  match first path mutations with
  | none => mutations
  | some (mutationOwner, count) =>
    if mutationOwner ≠ owner then mutations
    else if count - 1 = 0 then remove path mutations
    else assign path (mutationOwner, count - 1) mutations

/-- `WorkspaceMutationGuard::drop`. -/
def endMutation (s : WorkspaceLeaseState) (guard : WorkspaceMutationGuard) : WorkspaceLeaseState :=
  { s with mutations := guard.paths.foldl (uncountMutation guard.owner) s.mutations }

/-- The conflicts of the paths with document leases, workspace leases and running mutations. -/
def conflicts (s : WorkspaceLeaseState) (it : Iteration) (paths : List PathBuf)
    (active : List (PathBuf × Bytes16)) : List WorkspaceLeaseConflict :=
  let documents := (active.filter fun a => paths.contains a.1).map fun a => ⟨a.1, a.2⟩
  let reserved := paths.flatMap fun path =>
    (((it.iter s.byPath).filter fun r => overlaps path r.1).map fun r =>
      ⟨path, r.2⟩) ++
    (((it.iter s.mutations).filter fun m => overlaps path m.1).map fun m => ⟨path, m.2.1⟩)
  dedupBy WorkspaceLeaseConflict.path
    ((documents ++ reserved).insertionSort fun a b => pathLe a.path b.path)

/-- A lease for paths without conflicts. -/
def claim (s : WorkspaceLeaseState) (owner id : Bytes16) (paths : List PathBuf) : WorkspaceLeaseState :=
  { s with
    byPath := paths.foldl (fun byPath path => assign path id byPath) s.byPath
    leases := assign id ⟨owner, paths⟩ s.leases }

def record (s : WorkspaceLeaseState) (owner transactionId : Bytes16) (outcome : WorkspaceLeaseOutcome) :
    WorkspaceLeaseState :=
  { s with ledger := assign (owner, transactionId) outcome s.ledger }

/-- `acquire`. The ids that are drawn at random are an argument; none where all of them are taken and
the source goes on drawing. -/
def acquire (s : WorkspaceLeaseState) (it : Iteration) (owner transactionId : Bytes16)
    (paths : List PathBuf) (active : List (PathBuf × Bytes16)) (dryRun : Bool) (draws : List Bytes16) :
    Option (WorkspaceLeaseOutcome × WorkspaceLeaseState) :=
  match if dryRun then none else first (owner, transactionId) s.ledger with
  | some outcome => some (outcome, s)
  | none =>
    let conflicts := s.conflicts it paths active
    if dryRun then some (⟨none, conflicts⟩, s)
    else if !conflicts.isEmpty then
      some (⟨none, conflicts⟩, s.record owner transactionId ⟨none, conflicts⟩)
    else
      (draws.find? fun candidate => (first candidate s.leases).isNone).map fun id =>
        (⟨some id, conflicts⟩,
          (s.claim owner id paths).record owner transactionId ⟨some id, conflicts⟩)

def release (s : WorkspaceLeaseState) (owner id : Bytes16) : Bool × WorkspaceLeaseState :=
  match first id s.leases with
  | none => (false, s)
  | some record =>
    if record.owner ≠ owner then (false, s)
    else
      (true, { s with
        leases := remove id s.leases
        byPath := record.paths.foldl (fun byPath path => remove path byPath) s.byPath })

/-- The first half of `release_owner`: the ids that it then releases one by one. -/
def ownedIds (s : WorkspaceLeaseState) (it : Iteration) (owner : Bytes16) : List Bytes16 :=
  ((it.iter s.leases).filter fun lease => lease.2.owner = owner).map Prod.fst

end WorkspaceLeaseState

/-! ## The system -/

/-- The table, the mutations that run, the owners that are being dropped with the ids they have still
to release, and what has been released so far. -/
structure LeaseSystem where
  table : WorkspaceLeaseState := {}
  guards : List WorkspaceMutationGuard := []
  drops : List (Bytes16 × List Bytes16) := []
  released : List (Bytes16 × Bytes16) := []

inductive LeaseOp
  | acquire (owner transactionId : Bytes16) (paths : List PathBuf) (active : List (PathBuf × Bytes16))
      (dryRun : Bool) (draws : List Bytes16)
  | release (owner id : Bytes16)
  | dropOwner (owner : Bytes16)
  | releaseNext (drop : Nat)
  | beginMutation (owner : Bytes16) (paths : List PathBuf)
  | endMutation (guard : Nat)
  | checkPaths (owner : Option Bytes16) (paths : List PathBuf)

inductive LeaseReply
  | acquired (outcome : WorkspaceLeaseOutcome)
  | released (ok : Bool)
  | begun (result : Except LeaseError Unit)
  | checked (result : Except LeaseError Unit)
  | done

namespace LeaseSystem

/-- `release`, noting what it has released. -/
def release (sys : LeaseSystem) (owner id : Bytes16) : Bool × LeaseSystem :=
  let done := sys.table.release owner id
  (done.1, { sys with
    table := done.2
    released := if done.1 then (owner, id) :: sys.released else sys.released })

/-- One step under the lock, none where it does not return. -/
def step (sys : LeaseSystem) (it : Iteration) : LeaseOp → Option (LeaseReply × LeaseSystem)
  | .acquire owner transactionId paths active dryRun draws =>
    (sys.table.acquire it owner transactionId paths active dryRun draws).map fun (outcome, table) =>
      (.acquired outcome, { sys with table := table })
  | .release owner id =>
    let (ok, sys) := sys.release owner id
    some (.released ok, sys)
  | .dropOwner owner =>
    some (.done, { sys with drops := sys.drops ++ [(owner, sys.table.ownedIds it owner)] })
  | .releaseNext drop =>
    match sys.drops[drop]? with
    | some (owner, id :: ids) =>
      let (ok, sys) := { sys with drops := sys.drops.set drop (owner, ids) }.release owner id
      some (.released ok, sys)
    | _ => none
  | .beginMutation owner paths =>
    match sys.table.beginMutation it owner paths with
    | .error e => some (.begun (.error e), sys)
    | .ok (guard, table) =>
      some (.begun (.ok ()), { sys with table := table, guards := sys.guards ++ [guard] })
  | .endMutation i =>
    sys.guards[i]?.map fun guard =>
      (.done, { sys with table := sys.table.endMutation guard, guards := sys.guards.eraseIdx i })
  | .checkPaths owner paths => some (.checked (sys.table.checkPaths it owner paths), sys)

/-- What a run of any operations by any owners can reach. -/
inductive Reachable : LeaseSystem → Prop
  | start : Reachable {}
  | step {sys sys' : LeaseSystem} {it : Iteration} {op : LeaseOp} {reply : LeaseReply} :
      Reachable sys → sys.step it op = some (reply, sys') → Reachable sys'

end LeaseSystem

end OhMyPi.Docserver
