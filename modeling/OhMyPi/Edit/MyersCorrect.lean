import Mathlib.Algebra.Order.Ring.Int
import OhMyPi.Edit.Myers
import OhMyPi.Lib.Except

/-! The Myers difference is right and minimal. After each round the paths in the window that is still looked
at reach as far as any path with that many edits; the window is left only where a path has met an edge, and it
always holds the diagonal on which both sequences end. -/

namespace OhMyPi.Myers

open EditGraph

section

variable {α : Type} {old new : List α}

/-! ## Paths -/

variable (old new) in
/-- The components of a path lead to a point. Each is unlike the one before it, and behind an addition nothing
is removed. -/
inductive Chain : List Component → Nat → Nat → Nat → Prop
  | nil : Chain [] 0 0 0
  | kept (h : Chain l x y d) (hbehind : ∀ c ∈ l.head?, (c.added || c.removed) = true) (hpos : 0 < n)
    (hmatch : Matches old new x y n) : Chain (⟨n, false, false⟩ :: l) (x + n) (y + n) d
  | removed (h : Chain l x y d) (hbehind : ∀ c ∈ l.head?, (c.added || c.removed) = false) (hpos : 0 < n)
    (hle : x + n ≤ old.length) : Chain (⟨n, false, true⟩ :: l) (x + n) y (d + n)
  | added (h : Chain l x y d) (hbehind : ∀ c ∈ l.head?, c.added = false) (hpos : 0 < n)
    (hle : y + n ≤ new.length) : Chain (⟨n, true, false⟩ :: l) x (y + n) (d + n)

theorem Chain.reach (h : Chain old new l x y d) : Reach old new d x y := by
  induction h with
  | nil => exact .start
  | kept h _ _ hmatch ih => exact ih.keeps hmatch
  | removed h _ _ hle ih => exact ih.removes hle
  | added h _ _ hle ih => exact ih.adds hle

variable (old new) in
/-- The path leads to a point with a number of edits. -/
structure PathAt (path : PathState) (d x y : Nat) : Prop where
  pos : path.oldPos = x - 1
  chain : Chain old new path.last x y d

theorem PathAt.add {path : PathState} (h : PathAt old new path d x y) (hy : y < new.length) :
    PathAt old new (addToPath path true false 0) (d + 1) x (y + 1) := by
  obtain ⟨oldPos, last⟩ := path
  obtain ⟨hpos, hchain⟩ := h
  refine ⟨by simpa [addToPath] using hpos, ?_⟩
  rw [addToPath]
  cases hchain with
  | nil => exact .added .nil (by simp) Nat.one_pos hy
  | kept h hbehind hsome hmatch => exact .added (.kept h hbehind hsome hmatch) (by simp) Nat.one_pos hy
  | removed h hbehind hsome hle => exact .added (.removed h hbehind hsome hle) (by simp) Nat.one_pos hy
  | added h hbehind hpos hle => exact .added h hbehind (Nat.succ_pos _) hy

/-- A path that ends in an addition is not gone on with by a removal: the other order is as good. -/
theorem PathAt.remove {path : PathState} (h : PathAt old new path d x y) (hx : x < old.length)
    (hfurthest : ∀ x₀ y₀, Reach old new d x₀ y₀ → (x₀ : Int) - y₀ = x - y + 2 → x₀ ≤ x) :
    PathAt old new (addToPath path false true 1) (d + 1) (x + 1) y := by
  obtain ⟨oldPos, last⟩ := path
  obtain ⟨hpos, hchain⟩ := h
  refine ⟨?_, ?_⟩
  · have hpos : oldPos = x - 1 := hpos
    simp only [addToPath]
    push_cast
    omega
  rw [addToPath]
  cases hchain with
  | nil => exact .removed .nil (by simp) Nat.one_pos hx
  | kept h hbehind hsome hmatch => exact .removed (.kept h hbehind hsome hmatch) (by simp) Nat.one_pos hx
  | removed h hbehind hpos hle => exact .removed h hbehind (Nat.succ_pos _) hx
  | @added l x y d n h hbehind hsome hle =>
    obtain ⟨m, rfl⟩ := Nat.exists_eq_succ_of_ne_zero hsome.ne'
    have hother : Reach old new (d + m + 1) (x + 1) (y + m) := (h.reach.adds (by omega)).remove hx
    have hle := hfurthest (x + 1) (y + m) hother (by push_cast; omega)
    omega

theorem head_addToPath (path : PathState) (added removed : Bool) (oldPosInc : Int) :
    ∀ c ∈ (addToPath path added removed oldPosInc).last.head?, c.added = added ∧ c.removed = removed := by
  intro c hc
  rw [addToPath] at hc
  simp only at hc
  split at hc
  · split at hc
    · cases hc
      exact ⟨rfl, rfl⟩
    · cases hc
      exact ⟨rfl, rfl⟩
  · cases hc
    exact ⟨rfl, rfl⟩

/-! ## The frontier -/

variable (old new) in
/-- The offset of the diagonal in the middle. -/
def center : Int := (old.length + new.length : Nat) + 1

variable (old new) in
/-- The slot of a diagonal holds a path to its furthest point, which is not the end. -/
structure Point (slots : Slots) (d : Nat) (diagonal : Int) (path : PathState) (x y : Nat) : Prop where
  held : slots.slot (diagonal + center old new) = some path
  leads : PathAt old new path d x y
  lies : (x : Int) - y = diagonal
  furthest : Furthest old new d diagonal x
  inside : ¬(x = old.length ∧ y = new.length)

theorem Point.le (h : Point old new slots d diagonal path x y) : x ≤ old.length ∧ y ≤ new.length :=
  h.leads.chain.reach.le

theorem Point.range (h : Point old new slots d diagonal path x y) :
    -(d : Int) ≤ diagonal ∧ diagonal ≤ d ∧ (diagonal - d) % 2 = 0 := by
  have hreach := h.leads.chain.reach.diagonal
  have hdiagonal := h.lies
  omega

theorem Point.of_slot (h : Point old new slots d diagonal path x y)
    (heq : slots'.slot (diagonal + center old new) = slots.slot (diagonal + center old new)) :
    Point old new slots' d diagonal path x y :=
  { h with held := heq.trans h.held }

/-- The diagonals that are still looked at, with a neighbour at each side. -/
structure Window (d : Nat) (low high : Option Int) (diagonal : Int) : Prop where
  parity : (diagonal - d) % 2 = 0
  left : -(d : Int) ≤ diagonal
  right : diagonal ≤ d
  above : ∀ m, low = some m → m - 1 ≤ diagonal
  below : ∀ h, high = some h → diagonal ≤ h + 1

variable (old new) in
/-- A point that meets an edge bounds what is looked at from then on. -/
structure Bounded (low high : Option Int) (diagonal : Int) (x y : Nat) : Prop where
  bottom : y = new.length → ∃ m, low = some m ∧ diagonal < m
  right : x = old.length → ∃ h, high = some h ∧ h < diagonal

variable (old new) in
/-- What a round leaves behind: all diagonals in the window have their furthest point, and the window only
ends where a point has met an edge. -/
structure Frontier (slots : Slots) (d : Nat) (low high : Option Int) : Prop where
  size : slots.size = 2 * (old.length + new.length : Nat) + 3
  beyond : ∀ diagonal, diagonal < -(d : Int) ∨ (d : Int) < diagonal →
    slots.slot (diagonal + center old new) = none
  live : ∀ diagonal, Window d low high diagonal →
    ∃ path x y, Point old new slots d diagonal path x y ∧ Bounded old new low high diagonal x y
  bottom : ∀ m, low = some m → ∃ path x, Point old new slots d (m - 1) path x new.length
  right : ∀ h, high = some h → ∃ path y, Point old new slots d (h + 1) path old.length y

/-- The diagonal on which both sequences end is within the bounds. -/
theorem Frontier.low_le (h : Frontier old new slots d low high) (hlow : low = some m) :
    m ≤ (old.length : Int) - new.length := by
  obtain ⟨path, x, hpoint⟩ := h.bottom m hlow
  have hle := hpoint.le.1
  have hinside := hpoint.inside
  have hdiagonal := hpoint.lies
  omega

theorem Frontier.le_high (h : Frontier old new slots d low high) (hhigh : high = some m) :
    (old.length : Int) - new.length ≤ m := by
  obtain ⟨path, y, hpoint⟩ := h.right m hhigh
  have hle := hpoint.le.2
  have hinside := hpoint.inside
  have hdiagonal := hpoint.lies
  omega

/-- The end is not reached while its diagonal holds another point. -/
theorem Frontier.unreached (h : Frontier old new slots d low high) :
    ¬Reach old new d old.length new.length := by
  intro hreach
  have hdiagonal := hreach.diagonal
  have hwindow : Window d low high ((old.length : Int) - new.length) :=
    { parity := by omega
      left := by omega
      right := by omega
      above := fun m hm => by
        have hle := h.low_le hm
        omega
      below := fun m hm => by
        have hle := h.le_high hm
        omega }
  obtain ⟨path, x, y, hpoint, -⟩ := h.live _ hwindow
  have hfurthest := hpoint.furthest _ _ hreach rfl
  have hle := hpoint.le
  have hinside := hpoint.inside
  have hpointDiagonal := hpoint.lies
  omega

/-! ## One diagonal -/

variable (old new) in
/-- The furthest path of a neighbouring diagonal: there is none, or it can go on to this one. -/
inductive Neighbour (d : Nat) (diagonal : Int) (free : Nat → Nat → Prop) : Option PathState → Prop
  | unreached (h : ∀ x y, Reach old new d x y → (x : Int) - y ≠ diagonal) : Neighbour d diagonal free none
  | free (h : PathAt old new path d x y) (hlies : (x : Int) - y = diagonal)
    (hfurthest : Furthest old new d diagonal x) (hfree : free x y) : Neighbour d diagonal free (some path)

theorem Frontier.neighbour {diagonal : Int} (h : Frontier old new slots d low high) (hparity : (diagonal - d) % 2 = 0)
    (habove : ∀ m, low = some m → m - 1 ≤ diagonal) (hbelow : ∀ h, high = some h → diagonal ≤ h + 1)
    (hfree : ∀ x y, x ≤ old.length → y ≤ new.length → Bounded old new low high diagonal x y → free x y) :
    Neighbour old new d diagonal free (slots.slot (diagonal + center old new)) := by
  rcases lt_or_ge diagonal (-(d : Int)) with hleft | hleft
  · rw [h.beyond diagonal (.inl hleft)]
    refine .unreached fun x y hreach heq => ?_
    have hdiagonal := hreach.diagonal
    omega
  rcases lt_or_ge (d : Int) diagonal with hright | hright
  · rw [h.beyond diagonal (.inr hright)]
    refine .unreached fun x y hreach heq => ?_
    have hdiagonal := hreach.diagonal
    omega
  obtain ⟨path, x, y, hpoint, hbounded⟩ := h.live diagonal ⟨hparity, hleft, hright, habove, hbelow⟩
  rw [hpoint.held]
  exact .free hpoint.leads hpoint.lies hpoint.furthest (hfree x y hpoint.le.1 hpoint.le.2 hbounded)

variable (old new) in
/-- A path on the diagonal after one more edit, as far as any edit leads. -/
structure Base (d : Nat) (diagonal : Int) (path : PathState) (x y : Nat) : Prop where
  leads : PathAt old new path (d + 1) x y
  lies : (x : Int) - y = diagonal
  removing : ∀ x₀ y₀, Reach old new d x₀ y₀ → (x₀ : Int) - y₀ = diagonal - 1 → x₀ + 1 ≤ x
  adding : ∀ x₀ y₀, Reach old new d x₀ y₀ → (x₀ : Int) - y₀ = diagonal + 1 → x₀ ≤ x

/-- Next to a point at the bottom the path is at the bottom, too. -/
theorem Base.bottom_of_low (h : Base old new d diagonal path x y)
    (hfrontier : Frontier old new before d low high) (hlow : low = some diagonal) : y = new.length := by
  obtain ⟨path', x', hpoint⟩ := hfrontier.bottom diagonal hlow
  have hle := h.removing _ _ hpoint.leads.chain.reach hpoint.lies
  have hy := h.leads.chain.reach.le.2
  have hlies := h.lies
  have hlies' := hpoint.lies
  omega

theorem Base.right_of_high (h : Base old new d diagonal path x y)
    (hfrontier : Frontier old new before d low high) (hhigh : high = some diagonal) : x = old.length := by
  obtain ⟨path', y', hpoint⟩ := hfrontier.right diagonal hhigh
  have hle := h.adding _ _ hpoint.leads.chain.reach hpoint.lies
  have hx := h.leads.chain.reach.le.1
  omega

theorem branch_spec
    (hremove : Neighbour old new d (diagonal - 1) (fun x _ => x < old.length) removePath)
    (hadd : Neighbour old new d (diagonal + 1) (fun _ y => y < new.length) addPath)
    (hsome : removePath = none → addPath = none → False) :
    (canAdd new addPath diagonal || canRemove old removePath) = true ∧
      ∃ path x y, branch old new removePath addPath diagonal = .ok path ∧
        Base old new d diagonal path x y ∧ ∀ c ∈ path.last.head?, (c.added || c.removed) = true := by
  have hadded : ∀ path, ∀ c ∈ (addToPath path true false 0).last.head?, (c.added || c.removed) = true := by
    intro path c hc
    rw [(head_addToPath _ _ _ _ c hc).1, Bool.true_or]
  have hremoved : ∀ path, ∀ c ∈ (addToPath path false true 1).last.head?, (c.added || c.removed) = true := by
    intro path c hc
    rw [(head_addToPath _ _ _ _ c hc).2, Bool.or_true]
  cases hremove with
  | unreached hnone =>
    cases hadd with
    | unreached => exact absurd (hsome rfl rfl) id
    | @free path x y h hlies hfurthest hy =>
      have hpos := h.pos
      have hcan : canAdd new (some path) diagonal = true := by
        simp only [canAdd, Option.any_some, Bool.and_eq_true, decide_eq_true_eq]
        omega
      refine ⟨by rw [hcan]; rfl, _, x, y + 1, rfl, ⟨h.add hy, by push_cast; omega, ?_, hfurthest⟩, hadded path⟩
      exact fun x₀ y₀ hreach heq => absurd heq (hnone x₀ y₀ hreach)
  | @free removePath rx ry hr hrlies hrfurthest hx =>
    have hrpos := hr.pos
    have hcan : canRemove old (some removePath) = true := by
      simp only [canRemove, Option.any_some, decide_eq_true_eq]
      omega
    refine ⟨by rw [hcan, Bool.or_true], ?_⟩
    cases hadd with
    | unreached hnone =>
      have hleads := hr.remove hx fun x₀ y₀ hreach heq => absurd (by omega) (hnone x₀ y₀ hreach)
      refine ⟨_, rx + 1, ry, by simp [branch, hcan, canAdd], ⟨hleads, by push_cast; omega, ?_, ?_⟩,
        hremoved removePath⟩
      · exact fun x₀ y₀ hreach heq => Nat.succ_le_succ (hrfurthest x₀ y₀ hreach heq)
      · exact fun x₀ y₀ hreach heq => absurd heq (hnone x₀ y₀ hreach)
    | @free addPath ax ay ha halies hafurthest hy =>
      have hapos := ha.pos
      have hcanAdd : canAdd new (some addPath) diagonal = true := by
        simp only [canAdd, Option.any_some, Bool.and_eq_true, decide_eq_true_eq]
        omega
      rcases lt_or_ge rx ax with hfurther | hfurther
      · refine ⟨addToPath addPath true false 0, ax, ay + 1, ?_,
          ⟨ha.add hy, by push_cast; omega, ?_, hafurthest⟩, hadded addPath⟩
        · have hlt : removePath.oldPos < addPath.oldPos := by omega
          simp [branch, hcan, hcanAdd, hlt]
        · exact fun x₀ y₀ hreach heq => (Nat.succ_le_succ (hrfurthest x₀ y₀ hreach heq)).trans hfurther
      · have hleads := hr.remove hx fun x₀ y₀ hreach heq =>
          (hafurthest x₀ y₀ hreach (by omega)).trans hfurther
        refine ⟨addToPath removePath false true 1, rx + 1, ry, ?_, ⟨hleads, by push_cast; omega, ?_, ?_⟩,
          hremoved removePath⟩
        · have hge : ¬removePath.oldPos < addPath.oldPos := by omega
          simp [branch, hcan, hcanAdd, hge]
        · exact fun x₀ y₀ hreach heq => Nat.succ_le_succ (hrfurthest x₀ y₀ hreach heq)
        · exact fun x₀ y₀ hreach heq => (hafurthest x₀ y₀ hreach heq).trans (Nat.le_succ_of_le hfurther)

/-- The slots with another path in one place. -/
def Slots.put (slots : Slots) (index : Int) (path : Option PathState) : Slots :=
  { slots with slot := Function.update slots.slot index path }

theorem Slots.get_eq {slots : Slots} (h : 0 ≤ index ∧ index < slots.size) :
    slots.get index = .ok (slots.slot index) := by
  rw [get, if_pos (by simpa using h)]

theorem Slots.set_eq {slots : Slots} (h : 0 ≤ index ∧ index < slots.size) :
    slots.set index path = .ok (slots.put index path) := by
  rw [set, if_pos (by simpa using h), put]

theorem Slots.put_same {slots : Slots} : (slots.put index path).slot index = path :=
  Function.update_self ..

theorem Slots.put_other {slots : Slots} (h : other ≠ index) :
    (slots.put index path).slot other = slots.slot other :=
  Function.update_of_ne h ..

/-- Where both sequences end the runs are built; elsewhere the path is kept, and an edge that it meets bounds
the search. -/
theorem settle_spec {state : State} {diagonal : Int} {path : PathState} (hpath : PathAt old new path d x y)
    (hinside : 0 ≤ diagonal + center old new ∧ diagonal + center old new < state.best.size)
    (hlow : ∀ m, state.minDiagonal = some m → m ≤ diagonal + 1)
    (hhigh : ∀ h, state.maxDiagonal = some h → diagonal - 1 ≤ h) :
    settle old new state (diagonal + center old new) diagonal path ((y : Int) - 1) =
      if x = old.length ∧ y = new.length then .ok (.inl (buildRuns path.last))
      else .ok (.inr
        { best := state.best.put (diagonal + center old new) (some path)
          minDiagonal := if y = new.length then some (diagonal + 1) else state.minDiagonal
          maxDiagonal := if x = old.length then some (diagonal - 1) else state.maxDiagonal }) := by
  have hpos := hpath.pos
  have hle := hpath.chain.reach.le
  have hold : (old.length ≤ path.oldPos + 1) = (x = old.length) := by
    rw [eq_iff_iff]
    omega
  have hnew : ((new.length : Int) ≤ (y : Int) - 1 + 1) = (y = new.length) := by
    rw [eq_iff_iff]
    omega
  have hmin : state.minDiagonal.elim (diagonal + 1) (max · (diagonal + 1)) = diagonal + 1 := by
    cases hm : state.minDiagonal with
    | none => rfl
    | some m => exact max_eq_right (hlow m hm)
  have hmax : state.maxDiagonal.elim (diagonal - 1) (min · (diagonal - 1)) = diagonal - 1 := by
    cases hm : state.maxDiagonal with
    | none => rfl
    | some m => exact min_eq_right (hhigh m hm)
  simp only [settle, hold, hnew, hmin, hmax, Slots.set_eq hinside, Except.ok_bind, Bool.and_eq_true,
    decide_eq_true_eq]
  rfl

/-! ## Rounds -/

/-- The first diagonal of a round, next to an edge or as far as the edits lead. -/
structure Start (d : Nat) (low high : Option Int) (start : Int) : Prop where
  parity : (start - (d + 1)) % 2 = 0
  left : -((d : Int) + 1) ≤ start
  right : start ≤ d + 1
  above : ∀ m, low = some m → m ≤ start
  below : ∀ h, high = some h → start ≤ h
  edge : low = some start ∨ start = -((d : Int) + 1)

variable (old new) in
/-- A round before one of its diagonals: those before it are done, those after it still hold the paths of the
previous round. -/
structure Progress (before : Slots) (d : Nat) (low high : Option Int) (start : Int) (state : State)
    (diagonal : Int) : Prop where
  size : state.best.size = 2 * (old.length + new.length : Nat) + 3
  parity : (diagonal - (d + 1)) % 2 = 0
  begun : start ≤ diagonal
  ahead : ∀ other, diagonal - 1 ≤ other → (other - d) % 2 = 0 →
    state.best.slot (other + center old new) = before.slot (other + center old new)
  beyond : ∀ other, other < -((d : Int) + 1) ∨ (d : Int) + 1 < other →
    state.best.slot (other + center old new) = none
  done : ∀ other, start ≤ other → other < diagonal → (other - (d + 1)) % 2 = 0 →
    ∃ path x y, Point old new state.best (d + 1) other path x y ∧
      Bounded old new state.minDiagonal state.maxDiagonal other x y
  bottom : ∀ m, state.minDiagonal = some m → low = some m ∨
    m ≤ diagonal ∧ ∃ path x, Point old new state.best (d + 1) (m - 1) path x new.length
  right : ∀ h, state.maxDiagonal = some h → high = some h ∨
    start ≤ h + 1 ∧ h + 1 < diagonal ∧ ∃ path y, Point old new state.best (d + 1) (h + 1) path old.length y
  raised : low = some start → start < diagonal → ∃ m, state.minDiagonal = some m ∧ start < m
  lowered : ∀ h, high = some h → h < diagonal → ∃ h', state.maxDiagonal = some h' ∧ h' < h

theorem lastDiagonal_le_iff {state : State} :
    diagonal ≤ lastDiagonal state d ↔ diagonal ≤ d ∧ ∀ h, state.maxDiagonal = some h → diagonal ≤ h := by
  rw [lastDiagonal]
  cases state.maxDiagonal with
  | none => simp
  | some bound => simp [and_comm]

/-- The end was found with that many edits. -/
def Found (old new : List α) (d : Nat) (runs : List Run) : Prop :=
  ∃ last, runs = buildRuns last ∧ Chain old new last old.length new.length d

section

variable {before : Slots} {state : State} {diagonal start : Int}
  (hfrontier : Frontier old new before d low high) (hstart : Start d low high start)
  (h : Progress old new before d low high start state diagonal)
  (hlast : diagonal ≤ lastDiagonal state (d + 1))

include hstart h in
theorem Progress.above (hlow : low = some m) : m ≤ diagonal :=
  (hstart.above m hlow).trans h.begun

include h hlast in
/-- The search has not gone past the bound of the previous round: its last diagonal meets the edge as well. -/
theorem Progress.below (hhigh : high = some m) : diagonal ≤ m := by
  by_contra hlt
  obtain ⟨m', hm', hlt'⟩ := h.lowered m hhigh (by omega)
  have hle := (lastDiagonal_le_iff.1 hlast).2 m' hm'
  omega

include hfrontier hstart h hlast

theorem Progress.neighbour (hnext : other = diagonal - 1 ∨ other = diagonal + 1)
    (hfree : ∀ x y, x ≤ old.length → y ≤ new.length → Bounded old new low high other x y → free x y) :
    Neighbour old new d other free (state.best.slot (other + center old new)) := by
  have hparity := h.parity
  rw [h.ahead _ (by omega) (by omega)]
  refine hfrontier.neighbour (by omega) (fun m hm => ?_) (fun m hm => ?_) hfree
  · have hle := h.above hstart hm
    omega
  · have hle := h.below hlast hm
    omega

theorem Progress.removable : Neighbour old new d (diagonal - 1) (fun x _ => x < old.length)
    (state.best.slot (diagonal - 1 + center old new)) := by
  refine h.neighbour hfrontier hstart hlast (.inl rfl) fun x y hx hy hbounded => ?_
  refine lt_of_le_of_ne hx fun hedge => ?_
  obtain ⟨m, hm, hlt⟩ := hbounded.right hedge
  have hle := h.below hlast hm
  omega

theorem Progress.addable : Neighbour old new d (diagonal + 1) (fun _ y => y < new.length)
    (state.best.slot (diagonal + 1 + center old new)) := by
  refine h.neighbour hfrontier hstart hlast (.inr rfl) fun x y hx hy hbounded => ?_
  refine lt_of_le_of_ne hy fun hedge => ?_
  obtain ⟨m, hm, hlt⟩ := hbounded.bottom hedge
  have hle := h.above hstart hm
  omega

/-- A diagonal without both neighbours has another parity. -/
theorem Progress.neighbour_some (hprevious : state.best.slot (diagonal - 1 + center old new) = none)
    (hnext : state.best.slot (diagonal + 1 + center old new) = none) : False := by
  have hparity := h.parity
  have hbegun := h.begun
  have hleft := hstart.left
  have hright := (lastDiagonal_le_iff.1 hlast).1
  have hwindow : ∀ other, other = diagonal - 1 ∨ other = diagonal + 1 → -(d : Int) ≤ other → other ≤ d →
      state.best.slot (other + center old new) ≠ none := by
    intro other hother hlow hhigh
    rw [h.ahead _ (by omega) (by omega)]
    obtain ⟨path, x, y, hpoint, -⟩ := hfrontier.live other
      { parity := by omega
        left := hlow
        right := hhigh
        above := fun m hm => by
          have hle := h.above hstart hm
          omega
        below := fun m hm => by
          have hle := h.below hlast hm
          omega }
    rw [hpoint.held]
    exact Option.some_ne_none path
  rcases le_or_gt (-(d : Int)) (diagonal - 1) with hfirst | hfirst
  · exact hwindow _ (.inl rfl) hfirst (by push_cast at hright; omega) hprevious
  · exact hwindow _ (.inr rfl) (by omega) (by omega) hnext

end

variable (old new) in
/-- The state after a path was found that does not reach the end. -/
def State.next (state : State) (diagonal : Int) (path : PathState) (x y : Nat) : State where
  best := (state.best.put (diagonal - 1 + center old new) none).put (diagonal + center old new) (some path)
  minDiagonal := if y = new.length then some (diagonal + 1) else state.minDiagonal
  maxDiagonal := if x = old.length then some (diagonal - 1) else state.maxDiagonal

theorem State.next_same {state : State} :
    (state.next old new diagonal path x y).best.slot (diagonal + center old new) = some path :=
  Slots.put_same

theorem State.next_other {state : State} {diagonal : Int} (hprevious : other ≠ diagonal - 1)
    (hthis : other ≠ diagonal) : (state.next old new diagonal path x y).best.slot (other + center old new) =
      state.best.slot (other + center old new) := by
  rw [State.next, Slots.put_other (by omega), Slots.put_other (by omega)]

/-- The points before the diagonal stay, as they are two apart. -/
theorem Point.next {state : State} {diagonal : Int} (h : Point old new state.best (d + 1) other path' x' y')
    (hparity : (diagonal - (d + 1)) % 2 = 0) (hlt : other < diagonal) :
    Point old new (state.next old new diagonal path x y).best (d + 1) other path' x' y' := by
  have hrange := h.range
  push_cast at hrange
  exact h.of_slot (State.next_other (by omega) (by omega))

theorem State.next_minDiagonal {state : State} : (state.next old new diagonal path x y).minDiagonal =
    if y = new.length then some (diagonal + 1) else state.minDiagonal := rfl

theorem State.next_maxDiagonal {state : State} : (state.next old new diagonal path x y).maxDiagonal =
    if x = old.length then some (diagonal - 1) else state.maxDiagonal := rfl

/-- The bounds only get tighter. -/
theorem State.lt_next_min {state : State} {diagonal : Int} (h : ∃ m, state.minDiagonal = some m ∧ other < m)
    (hle : ∀ m, state.minDiagonal = some m → m ≤ diagonal + 1) :
    ∃ m, (state.next old new diagonal path x y).minDiagonal = some m ∧ other < m := by
  obtain ⟨m, hm, hlt⟩ := h
  rw [State.next_minDiagonal]
  split
  · exact ⟨_, rfl, hlt.trans_le (hle m hm)⟩
  · exact ⟨m, hm, hlt⟩

theorem State.next_max_lt {state : State} {diagonal : Int} (h : ∃ m, state.maxDiagonal = some m ∧ m < other)
    (hle : ∀ m, state.maxDiagonal = some m → diagonal - 1 ≤ m) :
    ∃ m, (state.next old new diagonal path x y).maxDiagonal = some m ∧ m < other := by
  obtain ⟨m, hm, hlt⟩ := h
  rw [State.next_maxDiagonal]
  split
  · exact ⟨_, rfl, (hle m hm).trans_lt hlt⟩
  · exact ⟨m, hm, hlt⟩

section

variable {before : Slots} {state : State} {diagonal start : Int}
  (hfrontier : Frontier old new before d low high) (hstart : Start d low high start)
  (h : Progress old new before d low high start state diagonal)
  (hlast : diagonal ≤ lastDiagonal state (d + 1))

include hstart h in
theorem Progress.min_le (hm : state.minDiagonal = some m) : m ≤ diagonal + 1 := by
  rcases h.bottom m hm with hlow | ⟨hle, -⟩
  · have hle := h.above hstart hlow
    omega
  · omega

include hlast in
theorem le_max (hm : state.maxDiagonal = some m) : diagonal - 1 ≤ m := by
  have hle := (lastDiagonal_le_iff.1 hlast).2 m hm
  omega

include hfrontier hstart h hlast

theorem Progress.next (hbase : Base old new d diagonal path x y) (hfurthest : Furthest old new (d + 1) diagonal x)
    (hinside : ¬(x = old.length ∧ y = new.length)) :
    Progress old new before d low high start (state.next old new diagonal path x y) (diagonal + 2) := by
  have hparity := h.parity
  have hbegun := h.begun
  have hleft := hstart.left
  have hright := (lastDiagonal_le_iff.1 hlast).1
  push_cast at hright
  have hpoint : Point old new (state.next old new diagonal path x y).best (d + 1) diagonal path x y :=
    ⟨State.next_same, hbase.leads, hbase.lies, hfurthest, hinside⟩
  refine ⟨h.size, by omega, by omega, ?_, ?_, ?_, ?_, ?_, ?_, ?_⟩
  · intro other hother hparity'
    rw [State.next_other (by omega) (by omega)]
    exact h.ahead other (by omega) hparity'
  · intro other hother
    by_cases hprevious : other = diagonal - 1
    · subst hprevious
      rw [State.next, Slots.put_other (by omega), Slots.put_same]
    · rw [State.next_other hprevious (by omega)]
      exact h.beyond other hother
  · intro other hother hlt hparity'
    rcases lt_or_ge other diagonal with hbefore | hge
    · obtain ⟨path', x', y', hpoint', hbounded⟩ := h.done other hother hbefore hparity'
      refine ⟨path', x', y', hpoint'.next hparity hbefore, fun hedge => ?_, fun hedge => ?_⟩
      · exact State.lt_next_min (hbounded.bottom hedge) fun m hm => h.min_le hstart hm
      · exact State.next_max_lt (hbounded.right hedge) fun m hm => le_max hlast hm
    · obtain rfl : other = diagonal := by omega
      refine ⟨path, x, y, hpoint, fun hedge => ⟨other + 1, ?_, by omega⟩, fun hedge => ⟨other - 1, ?_, by omega⟩⟩
      · rw [State.next_minDiagonal, if_pos hedge]
      · rw [State.next_maxDiagonal, if_pos hedge]
  · intro m hm
    rw [State.next_minDiagonal] at hm
    split at hm
    · next hedge =>
      obtain rfl := Option.some.inj hm
      subst hedge
      refine .inr ⟨by omega, path, x, ?_⟩
      rwa [add_sub_cancel_right]
    · rcases h.bottom m hm with hlow | ⟨hle, path', x', hpoint'⟩
      · exact .inl hlow
      · exact .inr ⟨by omega, path', x', hpoint'.next hparity (by omega)⟩
  · intro m hm
    rw [State.next_maxDiagonal] at hm
    split at hm
    · next hedge =>
      obtain rfl := Option.some.inj hm
      subst hedge
      refine .inr ⟨by omega, by omega, path, y, ?_⟩
      rwa [sub_add_cancel]
    · rcases h.right m hm with hhigh | ⟨hge, hlt, path', y', hpoint'⟩
      · exact .inl hhigh
      · exact .inr ⟨hge, by omega, path', y', hpoint'.next hparity hlt⟩
  · intro hlow _
    rcases hbegun.lt_or_eq with hlt | rfl
    · exact State.lt_next_min (h.raised hlow hlt) fun m hm => h.min_le hstart hm
    · have hedge := hbase.bottom_of_low hfrontier hlow
      exact ⟨start + 1, by rw [State.next_minDiagonal, if_pos hedge], by omega⟩
  · intro m hhigh hlt
    rcases (h.below hlast hhigh).lt_or_eq with hless | rfl
    · obtain ⟨path', y', hpoint'⟩ := hfrontier.right m hhigh
      have hrange := hpoint'.range
      omega
    · have hedge := hbase.right_of_high hfrontier hhigh
      exact ⟨diagonal - 1, by rw [State.next_maxDiagonal, if_pos hedge], by omega⟩

end

/-- A round starts at the lower bound, or as far as the edits lead. -/
theorem Frontier.starts (h : Frontier old new before d low high) :
    Start d low high (low.elim (-((d : Int) + 1)) id) := by
  have hhigh : ∀ m, high = some m → -(d : Int) ≤ m + 1 := by
    intro m hm
    obtain ⟨path, y, hpoint⟩ := h.right m hm
    exact hpoint.range.1
  cases low with
  | none =>
    simp only [Option.elim]
    refine ⟨by omega, le_rfl, by omega, fun m hm => (nomatch hm), fun m hm => ?_, .inr rfl⟩
    have hle := hhigh m hm
    omega
  | some low =>
    obtain ⟨path, x, hpoint⟩ := h.bottom low rfl
    obtain ⟨hleft, hright, hparity⟩ := hpoint.range
    simp only [Option.elim, id]
    refine ⟨by omega, by omega, by omega, fun m hm => (Option.some.inj hm).ge, fun m hm => ?_, .inl rfl⟩
    exact (h.low_le rfl).trans (h.le_high hm)

theorem Frontier.progress (h : Frontier old new before d low high) (hstart : Start d low high start)
    (hlow : ∀ m, minDiagonal = some m → low = some m) (hhigh : ∀ m, maxDiagonal = some m → high = some m) :
    Progress old new before d low high start ⟨before, minDiagonal, maxDiagonal⟩ start where
  size := h.size
  parity := hstart.parity
  begun := le_rfl
  ahead _ _ _ := rfl
  beyond other hother := h.beyond other (by omega)
  done other hge hlt := absurd hge (not_le_of_gt hlt)
  bottom m hm := .inl (hlow m hm)
  right m hm := .inl (hhigh m hm)
  raised _ hlt := absurd hlt (lt_irrefl _)
  lowered m hm hlt := absurd (hstart.below m hm) (not_le_of_gt hlt)

section

variable {before : Slots} {state : State} {diagonal start : Int}
  (hfrontier : Frontier old new before d low high) (hstart : Start d low high start)
  (h : Progress old new before d low high start state diagonal)
  (hend : ¬diagonal ≤ lastDiagonal state (d + 1))

include hend in
/-- A round that ends within the edits ends at a bound. -/
theorem round_ends : (d : Int) + 1 < diagonal ∨ ∃ m, state.maxDiagonal = some m ∧ m < diagonal := by
  rw [lastDiagonal_le_iff, not_and_or] at hend
  rcases hend with hright | hbound
  · push_cast at hright
    exact .inl (by omega)
  · push Not at hbound
    exact .inr hbound

include hstart h hend in
/-- At least one diagonal is looked at. -/
theorem Progress.started : start < diagonal := by
  refine lt_of_le_of_ne h.begun ?_
  rintro rfl
  rcases round_ends hend with hright | ⟨m, hm, hlt⟩
  · exact absurd hstart.right (not_le_of_gt hright)
  · rcases h.right m hm with hhigh | ⟨hge, hlt', -⟩
    · exact absurd (hstart.below m hhigh) (not_le_of_gt hlt)
    · omega

include hfrontier hstart h hend

/-- The lower bound is that of a path of this round. -/
theorem Progress.min_ne (hm : state.minDiagonal = some m) : low ≠ some m := by
  intro hlow
  have hle := hstart.above m hlow
  obtain ⟨path, x, hpoint⟩ := hfrontier.bottom m hlow
  have hrange := hpoint.range
  rcases hstart.edge with hedge | hedge
  · obtain ⟨m', hm', hlt⟩ := h.raised hedge (h.started hstart hend)
    rw [hlow] at hedge
    rw [hm] at hm'
    cases hedge
    cases hm'
    exact absurd hlt (lt_irrefl _)
  · omega

omit hstart in
theorem Progress.max_ne (hm : state.maxDiagonal = some m) : high ≠ some m := by
  intro hhigh
  obtain ⟨path, y, hpoint⟩ := hfrontier.right m hhigh
  have hrange := hpoint.range
  have hlt : m < diagonal := by
    rcases round_ends hend with hright | ⟨m', hm', hlt⟩
    · omega
    · rw [hm] at hm'
      cases hm'
      exact hlt
  obtain ⟨m', hm', hlt'⟩ := h.lowered m hhigh hlt
  rw [hm] at hm'
  cases hm'
  exact absurd hlt' (lt_irrefl _)

theorem Progress.frontier :
    Frontier old new state.best (d + 1) state.minDiagonal state.maxDiagonal := by
  refine ⟨h.size, fun other hother => h.beyond other (by push_cast at hother; exact hother), ?_, ?_, ?_⟩
  · intro other hwindow
    have hparity := hwindow.parity
    have hleft := hwindow.left
    have hright := hwindow.right
    push_cast at hparity hleft hright
    refine h.done other ?_ ?_ hparity
    · rcases hstart.edge with hedge | hedge
      · obtain ⟨m, hm, hlt⟩ := h.raised hedge (h.started hstart hend)
        have hle := hwindow.above m hm
        omega
      · omega
    · rcases round_ends hend with hall | ⟨m, hm, hlt⟩
      · omega
      · have hle := hwindow.below m hm
        rcases h.right m hm with hhigh | ⟨-, hlt', -⟩
        · exact absurd hhigh (h.max_ne hfrontier hend hm)
        · omega
  · intro m hm
    rcases h.bottom m hm with hlow | ⟨-, hpoint⟩
    · exact absurd hlow (h.min_ne hfrontier hstart hend hm)
    · exact hpoint
  · intro m hm
    rcases h.right m hm with hhigh | ⟨-, -, hpoint⟩
    · exact absurd hhigh (h.max_ne hfrontier hend hm)
    · exact hpoint

end

theorem firstDiagonal_eq (state : State) (h : Frontier old new state.best d state.minDiagonal state.maxDiagonal) :
    firstDiagonal state (d + 1) = state.minDiagonal.elim (-((d : Int) + 1)) id := by
  rw [firstDiagonal]
  cases hm : state.minDiagonal with
  | none => simp only [Option.elim]; push_cast; rfl
  | some m =>
    obtain ⟨path, x, hpoint⟩ := h.bottom m hm
    have hrange := hpoint.range
    simp only [Option.elim, id]
    push_cast
    omega

/-! ## The search -/

variable [DecidableEq α]

theorem PathAt.extractCommon {path : PathState} {diagonal : Int} (h : PathAt old new path d x y)
    (hdiagonal : (x : Int) - y = diagonal) (hbehind : ∀ c ∈ path.last.head?, (c.added || c.removed) = true) :
    ∃ path', extractCommon old new path diagonal =
        .ok (path', (y : Int) + commonLength (old.drop x) (new.drop y) - 1) ∧
      PathAt old new path' d (x + commonLength (old.drop x) (new.drop y))
        (y + commonLength (old.drop x) (new.drop y)) := by
  obtain ⟨hx, hy⟩ := h.chain.reach.le
  have hpos := h.pos
  have hnew : path.oldPos - diagonal = (y : Int) - 1 := by omega
  simp only [Myers.extractCommon, hnew]
  split
  · next hinside =>
    simp only [Bool.and_eq_true, decide_eq_true_eq] at hinside
    rw [if_neg (by simp only [Bool.or_eq_true, decide_eq_true_eq]; omega)]
    have hx' : (path.oldPos + 1).toNat = x := by omega
    have hy' : ((y : Int) - 1 + 1).toNat = y := by omega
    rw [hx', hy']
    have hnext : (y : Int) - 1 + commonLength (old.drop x) (new.drop y) =
        y + commonLength (old.drop x) (new.drop y) - 1 := by omega
    rw [hnext]
    refine ⟨_, rfl, ?_, ?_⟩
    · simp only [hpos]
      push_cast
      omega
    · simp only
      split
      · next hsome => exact .kept h.chain hbehind hsome (matches_commonLength x y)
      · next hzero =>
        have hzero : commonLength (old.drop x) (new.drop y) = 0 := by omega
        rw [hzero]
        exact h.chain
  · next hinside =>
    have hzero : commonLength (old.drop x) (new.drop y) = 0 := by
      simp only [Bool.and_eq_true, decide_eq_true_eq, not_and_or] at hinside
      rcases hinside with hend | hend
      · rw [show new.drop y = [] from List.drop_eq_nil_iff.2 (by omega)]
        cases old.drop x <;> rfl
      · rw [show old.drop x = [] from List.drop_eq_nil_iff.2 (by omega)]
        rfl
    rw [hzero]
    exact ⟨path, by simp, h⟩

/-- On a diagonal with a neighbour the furthest path is found. -/
theorem visit_spec {state : State} {diagonal : Int}
    (hsize : state.best.size = 2 * (old.length + new.length : Nat) + 3)
    (hleft : -((old.length + new.length : Nat) : Int) ≤ diagonal)
    (hright : diagonal ≤ (old.length + new.length : Nat))
    (hremove : Neighbour old new d (diagonal - 1) (fun x _ => x < old.length)
      (state.best.slot (diagonal - 1 + center old new)))
    (hadd : Neighbour old new d (diagonal + 1) (fun _ y => y < new.length)
      (state.best.slot (diagonal + 1 + center old new)))
    (hsome : state.best.slot (diagonal - 1 + center old new) = none →
      state.best.slot (diagonal + 1 + center old new) = none → False) :
    ∃ path x y, Base old new d diagonal path x y ∧ Furthest old new (d + 1) diagonal x ∧
      visit old new (center old new) state diagonal =
        settle old new { state with best := state.best.put (diagonal - 1 + center old new) none }
          (diagonal + center old new) diagonal path ((y : Int) - 1) := by
  obtain ⟨hcan, basePath, x, y, hbranch, hbase, hbehind⟩ := branch_spec hremove hadd hsome
  obtain ⟨path, hcommon, hpath⟩ := hbase.leads.extractCommon hbase.lies hbehind
  have hlies := hbase.lies
  have hprevious : diagonal + center old new - 1 = diagonal - 1 + center old new := by omega
  have hnext : diagonal + center old new + 1 = diagonal + 1 + center old new := by omega
  have hbefore : 0 ≤ diagonal - 1 + center old new ∧ diagonal - 1 + center old new < state.best.size := by
    rw [hsize, center]
    omega
  have hafter : 0 ≤ diagonal + 1 + center old new ∧
      diagonal + 1 + center old new < (state.best.put (diagonal - 1 + center old new) none).size := by
    rw [Slots.put, hsize, center]
    omega
  have hother : diagonal + 1 + center old new ≠ diagonal - 1 + center old new := by omega
  refine ⟨path, _, _, ⟨hpath, by push_cast; omega, ?_, ?_⟩, ?_, ?_⟩
  · exact fun x₀ y₀ hreach heq => (hbase.removing x₀ y₀ hreach heq).trans (Nat.le_add_right _ _)
  · exact fun x₀ y₀ hreach heq => (hbase.adding x₀ y₀ hreach heq).trans (Nat.le_add_right _ _)
  · refine furthest_succ hlies (fun x₀ y₀ hreach _ heq => ?_) (fun x₀ y₀ hreach _ heq => ?_)
    · exact hbase.removing x₀ y₀ hreach (by omega)
    · exact hbase.adding x₀ y₀ hreach (by omega)
  · have hneither : (!canAdd new (state.best.slot (diagonal + 1 + center old new)) diagonal &&
        !canRemove old (state.best.slot (diagonal - 1 + center old new))) = false := by
      rw [← Bool.not_or, hcan, Bool.not_true]
    rw [visit, hprevious, hnext, Slots.get_eq hbefore, Except.ok_bind, Slots.set_eq hbefore, Except.ok_bind,
      Slots.get_eq hafter, Except.ok_bind, Slots.put_other hother, hneither, if_neg Bool.false_ne_true, hbranch,
      Except.ok_bind, hcommon, Except.ok_bind]
    push_cast
    rfl

section

variable {before : Slots} {state : State} {diagonal start : Int}
  (hfrontier : Frontier old new before d low high) (hstart : Start d low high start)
  (h : Progress old new before d low high start state diagonal)
  (hlast : diagonal ≤ lastDiagonal state (d + 1))

include hfrontier hstart h hlast

theorem Progress.visit (hfew : d + 1 ≤ old.length + new.length) :
    (∃ runs, visit old new (center old new) state diagonal = .ok (.inl runs) ∧ Found old new (d + 1) runs) ∨
      ∃ next, visit old new (center old new) state diagonal = .ok (.inr next) ∧
        Progress old new before d low high start next (diagonal + 2) := by
  have hright := (lastDiagonal_le_iff.1 hlast).1
  have hbegun := h.begun
  have hleft := hstart.left
  obtain ⟨path, x, y, hbase, hfurthest, hvisit⟩ := visit_spec h.size (by omega) (by omega)
    (h.removable hfrontier hstart hlast) (h.addable hfrontier hstart hlast)
    (h.neighbour_some hfrontier hstart hlast)
  have hinside : 0 ≤ diagonal + center old new ∧
      diagonal + center old new < (state.best.put (diagonal - 1 + center old new) none).size := by
    rw [Slots.put, h.size, center]
    omega
  have hsettle := @settle_spec α old new (d + 1) x y
    ⟨state.best.put (diagonal - 1 + center old new) none, state.minDiagonal, state.maxDiagonal⟩ diagonal path
    hbase.leads hinside (fun m hm => h.min_le hstart hm) (fun m hm => le_max hlast hm)
  rw [hvisit, hsettle]
  split
  · next hend =>
    obtain ⟨rfl, rfl⟩ := hend
    exact .inl ⟨_, rfl, _, rfl, hbase.leads.chain⟩
  · next hinside => exact .inr ⟨_, rfl, h.next hfrontier hstart hlast hbase hfurthest hinside⟩

omit hlast in
/-- A round either finds the end or leaves the next frontier behind. -/
theorem Progress.round (hfew : d + 1 ≤ old.length + new.length) :
    (∃ runs, round old new (center old new) (d + 1) state diagonal = .ok (.inl runs) ∧
        Found old new (d + 1) runs) ∨
      ∃ next, round old new (center old new) (d + 1) state diagonal = .ok (.inr next) ∧
        Frontier old new next.best (d + 1) next.minDiagonal next.maxDiagonal := by
  generalize hmeasure : ((d : Int) + 2 - diagonal).toNat = measure
  induction measure using Nat.strong_induction_on generalizing state diagonal with
  | _ measure ih =>
    rw [Myers.round]
    split
    · next hlast =>
      have hright := (lastDiagonal_le_iff.1 hlast).1
      push_cast at hright
      rcases h.visit hfrontier hstart hlast hfew with ⟨runs, hvisit, hfound⟩ | ⟨next, hvisit, hnext⟩
      · exact .inl ⟨runs, by rw [hvisit]; rfl, hfound⟩
      · rw [hvisit]
        exact ih _ (by omega) hnext rfl
    · next hend => exact .inr ⟨state, rfl, h.frontier hfrontier hstart hend⟩

end

/-- The difference has as few edits as any. -/
def Minimal (old new : List α) (d : Nat) : Prop :=
  ∀ d', Reach old new d' old.length new.length → d ≤ d'

theorem rounds_spec {state : State} (h : Frontier old new state.best d state.minDiagonal state.maxDiagonal)
    (hleft : left + d = old.length + new.length)
    (hbefore : ∀ d' < d, ¬Reach old new d' old.length new.length) :
    ∃ runs d', rounds old new (center old new) left (d + 1) state = .ok runs ∧ Found old new d' runs ∧
      Minimal old new d' := by
  induction left generalizing d state with
  | zero =>
    have hall : Reach old new (old.length + new.length) old.length new.length := reach_all
    rw [← hleft, Nat.zero_add] at hall
    exact absurd hall h.unreached
  | succ left ih =>
    have hunreached : ∀ d' < d + 1, ¬Reach old new d' old.length new.length := by
      intro d' hlt
      rcases Nat.lt_succ_iff_lt_or_eq.1 hlt with hlt | rfl
      · exact hbefore d' hlt
      · exact h.unreached
    have hprogress := h.progress h.starts (fun _ hm => hm) (fun _ hm => hm)
    rw [rounds, firstDiagonal_eq state h]
    rcases hprogress.round h h.starts (by omega) with ⟨runs, hround, hfound⟩ | ⟨next, hround, hnext⟩
    · refine ⟨runs, d + 1, by rw [hround]; rfl, hfound, fun d' hreach => ?_⟩
      exact Nat.le_of_not_lt fun hlt => hunreached d' hlt hreach
    · rw [hround]
      exact ih hnext (by omega) hunreached

/-! ## The seed -/

theorem Slots.put_eq_self {slots : Slots} (h : slots.slot index = path) : slots.put index path = slots := by
  rw [Slots.put, Function.update_eq_self_iff.2 h.symm]

variable (old new) in
/-- The bounds that the seed would give, if the code asked for them. -/
def seedLow : Option Int := if commonLength old new = new.length then some 1 else none

variable (old new) in
def seedHigh : Option Int := if commonLength old new = old.length then some (-1) else none

variable (old new) in
def seedSlots (seed : PathState) : Slots :=
  Slots.put ⟨2 * (old.length + new.length : Nat) + 3, fun _ => none⟩ (center old new) (some seed)

theorem seed_frontier (hseed : PathAt old new seed 0 (commonLength old new) (commonLength old new))
    (hinside : ¬(commonLength old new = old.length ∧ commonLength old new = new.length)) :
    Frontier old new (seedSlots old new seed) 0 (seedLow old new) (seedHigh old new) := by
  have hpoint : Point old new (seedSlots old new seed) 0 0 seed (commonLength old new) (commonLength old new) := by
    refine ⟨?_, hseed, sub_self _, furthest_zero, hinside⟩
    rw [zero_add]
    exact Slots.put_same
  refine ⟨rfl, ?_, ?_, ?_, ?_⟩
  · intro diagonal hdiagonal
    exact Slots.put_other (by push_cast at hdiagonal; omega)
  · intro diagonal hwindow
    have hleft := hwindow.left
    have hright := hwindow.right
    obtain rfl : diagonal = 0 := by push_cast at hleft hright; omega
    refine ⟨seed, _, _, hpoint, fun hedge => ?_, fun hedge => ?_⟩
    · exact ⟨1, by rw [seedLow, if_pos hedge], by omega⟩
    · exact ⟨-1, by rw [seedHigh, if_pos hedge], by omega⟩
  · intro m hm
    rw [seedLow] at hm
    split at hm
    · next hedge =>
      obtain rfl := Option.some.inj hm
      rw [← hedge]
      exact ⟨seed, _, hpoint⟩
    · cases hm
  · intro m hm
    rw [seedHigh] at hm
    split at hm
    · next hedge =>
      obtain rfl := Option.some.inj hm
      have hpoint' := hpoint
      rw [hedge] at hpoint'
      exact ⟨seed, _, hpoint'⟩
    · cases hm

/-- Where the seed has read all new tokens, the first diagonal has no path. -/
theorem visit_seed (hseed : PathAt old new seed 0 (commonLength old new) (commonLength old new))
    (hedge : commonLength old new = new.length)
    (hinside : ¬(commonLength old new = old.length ∧ commonLength old new = new.length)) :
    visit old new (center old new) ⟨seedSlots old new seed, none, none⟩ (-1) =
      .ok (.inr ⟨seedSlots old new seed, none, none⟩) := by
  have hfrontier := seed_frontier hseed hinside
  have hle := hseed.chain.reach.le
  have hpos := hseed.pos
  have hsize := hfrontier.size
  have hprevious : -1 + center old new - 1 = -2 + center old new := by omega
  have hnext : -1 + center old new + 1 = center old new := by omega
  have hinsideSlots : ∀ index : Int, -2 ≤ index → index ≤ 0 → 0 ≤ index + center old new ∧
      index + center old new < (seedSlots old new seed).size := by
    intro index hlow hhigh
    rw [hsize, center]
    omega
  have hmiddle : 0 ≤ center old new ∧ center old new < (seedSlots old new seed).size := by
    simpa using hinsideSlots 0 (by omega) le_rfl
  have hfirst : (seedSlots old new seed).slot (-2 + center old new) = none :=
    hfrontier.beyond _ (.inl (by decide))
  have hself : (seedSlots old new seed).slot (-1 + center old new) = none :=
    hfrontier.beyond _ (.inl (by decide))
  have hcan : canAdd new (some seed) (-1) = false := by
    simp only [canAdd, Option.any_some, Bool.and_eq_false_iff, decide_eq_false_iff_not]
    omega
  rw [visit, hprevious, hnext, Slots.get_eq (hinsideSlots _ (by omega) (by omega)), Except.ok_bind, hfirst,
    Slots.set_eq (hinsideSlots _ (by omega) (by omega)), Except.ok_bind, Slots.put_eq_self hfirst,
    Slots.get_eq hmiddle, Except.ok_bind, show (seedSlots old new seed).slot (center old new) = some seed from
      Slots.put_same, hcan]
  rw [if_pos (by rfl), Slots.set_eq (hinsideSlots _ (by omega) (by omega)), Slots.put_eq_self hself]
  rfl

theorem first_round (hseed : PathAt old new seed 0 (commonLength old new) (commonLength old new))
    (hinside : ¬(commonLength old new = old.length ∧ commonLength old new = new.length)) :
    (∃ runs, round old new (center old new) 1 ⟨seedSlots old new seed, none, none⟩ (-1) = .ok (.inl runs) ∧
        Found old new 1 runs) ∨
      ∃ next, round old new (center old new) 1 ⟨seedSlots old new seed, none, none⟩ (-1) = .ok (.inr next) ∧
        Frontier old new next.best 1 next.minDiagonal next.maxDiagonal := by
  have hfrontier := seed_frontier hseed hinside
  have hle := hseed.chain.reach.le
  have hstarts := hfrontier.starts
  have hprogress := hfrontier.progress hstarts (fun m (hm : none = some m) => nomatch hm)
    (fun m (hm : none = some m) => nomatch hm)
  have hround := hprogress.round hfrontier hstarts (by omega)
  by_cases hedge : commonLength old new = new.length
  · -- The diagonal without a path is skipped.
    rw [seedLow, if_pos hedge] at hround
    have hlast : (-1 : Int) ≤ lastDiagonal ⟨seedSlots old new seed, none, none⟩ 1 :=
      lastDiagonal_le_iff.2 ⟨by decide, fun m hm => nomatch hm⟩
    rw [Myers.round, dif_pos hlast, visit_seed hseed hedge hinside]
    exact hround
  · rw [seedLow, if_neg hedge] at hround
    exact hround

theorem rounds_seed (hseed : PathAt old new seed 0 (commonLength old new) (commonLength old new))
    (hinside : ¬(commonLength old new = old.length ∧ commonLength old new = new.length)) :
    ∃ runs d, rounds old new (center old new) (old.length + new.length) 1 ⟨seedSlots old new seed, none, none⟩ =
      .ok runs ∧ Found old new d runs ∧ Minimal old new d := by
  have hle := hseed.chain.reach.le
  obtain ⟨left, hleft⟩ : ∃ left, old.length + new.length = left + 1 := Nat.exists_eq_add_one.2 (by omega)
  have hunreached : ∀ d' < 1, ¬Reach old new d' old.length new.length := by
    intro d' hlt
    obtain rfl : d' = 0 := by omega
    exact (seed_frontier hseed hinside).unreached
  have hfirst : firstDiagonal ⟨seedSlots old new seed, none, none⟩ 1 = -1 := rfl
  rw [hleft, rounds, hfirst]
  rcases first_round hseed hinside with ⟨runs, hround, hfound⟩ | ⟨next, hround, hnext⟩
  · refine ⟨runs, 1, by rw [hround]; rfl, hfound, fun d' hreach => ?_⟩
    exact Nat.le_of_not_lt fun hlt => hunreached d' hlt hreach
  · rw [hround]
    exact rounds_spec hnext (by omega) hunreached

theorem myersDiff_eq (old new : List α) :
    ∃ seed, PathAt old new seed 0 (commonLength old new) (commonLength old new) ∧ myersDiff old new =
      if commonLength old new = old.length ∧ commonLength old new = new.length then .ok (buildRuns seed.last)
      else rounds old new (center old new) (old.length + new.length) 1 ⟨seedSlots old new seed, none, none⟩ := by
  have hstart : PathAt old new ⟨-1, []⟩ 0 0 0 := ⟨rfl, .nil⟩
  have hzero : ((0 : Nat) : Int) - (0 : Nat) = 0 := rfl
  obtain ⟨seed, hcommon, hseed⟩ := hstart.extractCommon hzero (by simp)
  simp only [List.drop_zero, Nat.cast_zero, zero_add] at hcommon hseed
  have hpos := hseed.pos
  have hle := hseed.chain.reach.le
  have hold : ((old.length : Int) ≤ seed.oldPos + 1) = (commonLength old new = old.length) := by
    rw [eq_iff_iff]
    omega
  have hnew : ((new.length : Int) ≤ (commonLength old new : Int) - 1 + 1) =
      (commonLength old new = new.length) := by
    rw [eq_iff_iff]
    omega
  have hslots : Slots.set ⟨2 * (old.length + new.length : Nat) + 3, fun _ => none⟩
      ((old.length + new.length : Nat) + 1) (some seed) = .ok (seedSlots old new seed) :=
    Slots.set_eq ⟨by omega, by simp only; omega⟩
  refine ⟨seed, hseed, ?_⟩
  simp only [myersDiff, hcommon, Except.ok_bind, hold, hnew, hslots, Bool.and_eq_true, decide_eq_true_eq]
  rfl

/-- The search ends with the runs of a shortest path, and without a fault. -/
theorem myersDiff_spec (old new : List α) :
    ∃ runs d, myersDiff old new = .ok runs ∧ Found old new d runs ∧ Minimal old new d := by
  obtain ⟨seed, hseed, heq⟩ := myersDiff_eq old new
  rw [heq]
  split
  · next hend =>
    refine ⟨_, 0, rfl, ⟨seed.last, rfl, ?_⟩, fun d' _ => Nat.zero_le d'⟩
    rw [← hend.1, ← hend.2]
    exact hseed.chain
  · next hinside => exact rounds_seed hseed hinside

end

end OhMyPi.Myers
