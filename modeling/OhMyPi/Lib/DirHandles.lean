import OhMyPi.Lib.PathWalk

/-! Directories behind handles, while other processes rename, replace and remove entries. A disk is
one moment of a file system: a directory keeps its identity from one moment to the next, its entries
do not. -/

namespace DirHandles

open PathWalk

abbrev Inode := Nat

inductive Dirent where
  | file (inode : Inode)
  | dir (inode : Inode)
  | link (target : Target)

def Dirent.isLink : Dirent → Bool
  | .link _ => true
  | _ => false

structure Disk where
  lookup : Inode → Name → Option Dirent
  parent : Inode → Inode

/-- The top directory, which no process replaces. -/
def root : Inode := 0

inductive Errno where
  | noEntry
  | notDirectory
  | isDirectory
  | alreadyExists
  | loop
  | invalid
  deriving DecidableEq

/-- A path opened from a directory with `O_DIRECTORY` and `O_NOFOLLOW`: a link is followed unless it
is the last piece. -/
def Disk.openDir (disk : Disk) (links : Nat) (cur : Inode) (steps : List Name) :
    Except Errno Inode :=
  match steps with
  | [] => .ok cur
  | piece :: rest =>
    if IsHere piece then disk.openDir links cur rest
    else if piece = dotdot then disk.openDir links (disk.parent cur) rest
    else
      match disk.lookup cur piece with
      | none => .error .noEntry
      | some (.file _) => .error .notDirectory
      | some (.dir d) => disk.openDir links d rest
      | some (.link target) =>
        if rest = [] then .error .notDirectory
        else
          match links with
          | 0 => .error .loop
          | links + 1 =>
            disk.openDir links (if isAbsolute target.bytes then root else cur)
              (pieces target.bytes ++ rest)
termination_by (links, steps.length)

/-- The entry at a place below a directory, looked up without following any link. -/
def Disk.at? (disk : Disk) (cur : Inode) : List Name → Option Dirent
  | [] => some (.dir cur)
  | name :: rest =>
    match disk.lookup cur name with
    | some (.dir d) => disk.at? d rest
    | some e => if rest = [] then some e else none
    | none => none

/-- No directory above the place is a link. -/
def Disk.ClearAbove (disk : Disk) (cur : Inode) (place : List Name) : Prop :=
  ∀ above target, above <+: place → above ≠ place → disk.at? cur above ≠ some (.link target)

/-- The entry is reached from the top along the names and through no link: each name was, one after
the other, an entry of the directory that was reached before it. -/
inductive Reached (disks : Nat → Disk) : Nat → List Name → Dirent → Prop
  | top : Reached disks t [] (.dir root)
  | step : Reached disks t names (.dir d) → t ≤ t' → (disks t').lookup d name = some e →
      e.isLink = false → Reached disks t' (names ++ [name]) e

theorem Disk.ClearAbove.tail {disk : Disk} (h : disk.ClearAbove cur (name :: rest))
    (hdir : disk.lookup cur name = some (.dir d)) : disk.ClearAbove d rest := by
  intro above target hle hne hat
  refine h (name :: above) target ((List.prefix_cons_inj name).2 hle) (fun heq => hne ?_) ?_
  · exact (List.cons.inj heq).2
  · rw [Disk.at?, hdir]
    exact hat

/-- A path with no link above its end is opened along its own names. -/
theorem reached_of_openDir {disks : Nat → Disk} (hplain : ∀ name ∈ names, Plain name)
    (hclear : (disks t).ClearAbove cur names) (hcur : Reached disks t front (.dir cur))
    (h : (disks t).openDir links cur names = .ok d) : Reached disks t (front ++ names) (.dir d) := by
  induction names generalizing cur front with
  | nil =>
    rw [Disk.openDir] at h
    cases h
    rw [List.append_nil]
    exact hcur
  | cons name rest ih =>
    have hname := hplain name List.mem_cons_self
    rw [Disk.openDir, if_neg hname.not_here, if_neg hname.ne_dotdot] at h
    cases hlookup : (disks t).lookup cur name with
    | none =>
      rw [hlookup] at h
      cases h
    | some e =>
      rw [hlookup] at h
      cases e with
      | file => cases h
      | dir d' =>
        have hstep := Reached.step hcur (Nat.le_refl t) hlookup rfl
        have hrest := ih (fun n hn => hplain n (.tail _ hn)) (hclear.tail hlookup) hstep h
        rwa [List.append_assoc] at hrest
      | link target =>
        by_cases hrest : rest = []
        · subst hrest
          cases h
        · refine absurd ?_ (hclear [name] target ⟨rest, rfl⟩ fun heq => hrest ?_)
          · rw [Disk.at?, hlookup]
            rfl
          · exact ((List.cons.inj heq).2).symm

end DirHandles
