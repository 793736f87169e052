import Mathlib.Order.Lattice
import OhMyPi.Lib.EditGraph

/-! The Myers difference of two token sequences (`edit/src/diff.rs`). Paths are kept for the diagonals of
one parity at a time, in an array that each round consumes in place; once a path meets an edge, the diagonals
beyond it are not looked at any more. -/

namespace OhMyPi.Myers

open EditGraph (commonLength)

/-- A run of tokens, in forward order. -/
structure Run where
  count : Nat
  added : Bool
  removed : Bool
  deriving DecidableEq

structure Component where
  count : Nat
  added : Bool
  removed : Bool

/-- The components of a path, the last first. -/
structure PathState where
  oldPos : Int
  last : List Component

/-- What ends the computation without a result. -/
inductive Fault
  | outOfBounds
  | expected
  | unreachable

section

variable {α : Type} [DecidableEq α] (old new : List α)

/-- Also gives the position in the new tokens. The tokens at the next positions are only looked at when both
positions are before the end. -/
def extractCommon (path : PathState) (diagonal : Int) : Except Fault (PathState × Int) :=
  let newPos := path.oldPos - diagonal
  if newPos + 1 < new.length && path.oldPos + 1 < old.length then
    if path.oldPos + 1 < 0 || newPos + 1 < 0 then .error .outOfBounds
    else
      let common := commonLength (old.drop (path.oldPos + 1).toNat) (new.drop (newPos + 1).toNat)
      let last := if 0 < common then ⟨common, false, false⟩ :: path.last else path.last
      .ok (⟨path.oldPos + common, last⟩, newPos + common)
  else .ok (path, newPos)

def addToPath (path : PathState) (added removed : Bool) (oldPosInc : Int) : PathState where
  oldPos := path.oldPos + oldPosInc
  last :=
    match path.last with
    | last :: prev =>
      if last.added == added && last.removed == removed then ⟨last.count + 1, added, removed⟩ :: prev
      else ⟨1, added, removed⟩ :: last :: prev
    | [] => [⟨1, added, removed⟩]

/-- Counts are cut to 32 bits. -/
def buildRuns (last : List Component) : List Run :=
  (last.map fun component => ⟨component.count % 2 ^ 32, component.added, component.removed⟩).reverse

/-- The array of paths. -/
structure Slots where
  size : Int
  slot : Int → Option PathState

namespace Slots

def get (slots : Slots) (index : Int) : Except Fault (Option PathState) :=
  if 0 ≤ index && index < slots.size then .ok (slots.slot index) else .error .outOfBounds

def set (slots : Slots) (index : Int) (path : Option PathState) : Except Fault Slots :=
  if 0 ≤ index && index < slots.size then .ok { slots with slot := Function.update slots.slot index path }
  else .error .outOfBounds

end Slots

/-- The state of the search between two diagonals. Without a bound, all diagonals are looked at. -/
structure State where
  best : Slots
  minDiagonal : Option Int
  maxDiagonal : Option Int

/-- Either the runs or the state to go on with. -/
abbrev Outcome := Except Fault (List Run ⊕ State)

/-- Whether the path on the next diagonal can add a token to end on this one. -/
def canAdd (addPath : Option PathState) (diagonal : Int) : Bool :=
  addPath.any fun path => 0 ≤ path.oldPos - diagonal && path.oldPos - diagonal < (new.length : Int)

def canRemove (removePath : Option PathState) : Bool :=
  removePath.any fun path => path.oldPos + 1 < (old.length : Int)

/-- The path that reaches further, that of an addition on ties. -/
def branch (removePath addPath : Option PathState) (diagonal : Int) : Except Fault PathState :=
  let add := !canRemove old removePath || canAdd new addPath diagonal &&
    removePath.any fun remove => addPath.any fun add => remove.oldPos < add.oldPos
  match add, addPath, removePath with
  | true, some path, _ => .ok (addToPath path true false 0)
  | false, _, some path => .ok (addToPath path false true 1)
  | _, _, _ => .error .expected

/-- A diagonal on which a path was found. -/
def settle (state : State) (index diagonal : Int) (path : PathState) (newPos : Int) : Outcome :=
  if old.length ≤ path.oldPos + 1 && new.length ≤ newPos + 1 then .ok (.inl (buildRuns path.last))
  else do
    let maxDiagonal :=
      if old.length ≤ path.oldPos + 1 then
        some (state.maxDiagonal.elim (diagonal - 1) (min · (diagonal - 1)))
      else state.maxDiagonal
    let minDiagonal :=
      if new.length ≤ newPos + 1 then some (state.minDiagonal.elim (diagonal + 1) (max · (diagonal + 1)))
      else state.minDiagonal
    let best ← state.best.set index (some path)
    return .inr ⟨best, minDiagonal, maxDiagonal⟩

/-- One diagonal of a round. -/
def visit (offset : Int) (state : State) (diagonal : Int) : Outcome := do
  let index := diagonal + offset
  let removePath ← state.best.get (index - 1)
  let best ← state.best.set (index - 1) none
  let addPath ← best.get (index + 1)
  if !canAdd new addPath diagonal && !canRemove old removePath then
    let best ← best.set index none
    return .inr { state with best }
  else
    let basePath ← branch old new removePath addPath diagonal
    let (basePath, newPos) ← extractCommon old new basePath diagonal
    settle old new { state with best } index diagonal basePath newPos

/-- Where a round ends and where it starts. -/
def lastDiagonal (state : State) (editLength : Nat) : Int :=
  state.maxDiagonal.elim (editLength : Int) (min · editLength)

def firstDiagonal (state : State) (editLength : Nat) : Int :=
  state.minDiagonal.elim (-editLength : Int) (max · (-editLength))

theorem lastDiagonal_le (state : State) (editLength : Nat) : lastDiagonal state editLength ≤ editLength := by
  rw [lastDiagonal]
  cases state.maxDiagonal with
  | none => exact le_rfl
  | some bound => exact min_le_right _ _

/-- The diagonals of a round, in steps of two. -/
def round (offset : Int) (editLength : Nat) (state : State) (diagonal : Int) : Outcome :=
  if _h : diagonal ≤ lastDiagonal state editLength then do
    match ← visit old new offset state diagonal with
    | .inl runs => return .inl runs
    | .inr next => round offset editLength next (diagonal + 2)
  else return .inr state
termination_by (editLength + 1 - diagonal).toNat
decreasing_by
  have hle := lastDiagonal_le state editLength
  omega

/-- Rounds with more and more edits. The count-down is that of the rounds that are left. -/
def rounds (offset : Int) : Nat → Nat → State → Except Fault (List Run)
  | 0, _, _ => .error .unreachable
  | left + 1, editLength, state => do
    match ← round old new offset editLength state (firstDiagonal state editLength) with
    | .inl runs => return runs
    | .inr state => rounds offset left (editLength + 1) state

def myersDiff : Except Fault (List Run) := do
  let maxEdit := old.length + new.length
  let offset : Int := maxEdit + 1
  let best : Slots := ⟨2 * maxEdit + 3, fun _ => none⟩
  let (seed, newPos) ← extractCommon old new ⟨-1, []⟩ 0
  if old.length ≤ seed.oldPos + 1 && new.length ≤ newPos + 1 then return buildRuns seed.last
  else
    let best ← best.set offset (some seed)
    rounds old new offset maxEdit 1 ⟨best, none, none⟩

end

end OhMyPi.Myers
