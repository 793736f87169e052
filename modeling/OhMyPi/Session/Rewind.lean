import OhMyPi.Session.Commands

/-! What a rewind that fails leaves behind. Replay resets the caches before it folds the chain of the
target; when an entry of the chain does not fold, the tree is put back and the caches are not. -/

namespace OhMyPi

namespace Session

variable (env : Env) (order : HashOrder)

/-- A rewind that returns an error changes nothing. -/
def RewindKeeps (target : EntryId) (s : Session) : Prop :=
  ∀ e, (rewind env order target s).1 = .error e → e ≠ .panic → (rewind env order target s).2 = s

/-- When an entry on the chain of the target does not fold, the session's caches are already those
that the chain yields up to there. -/
def CachesStand (target : EntryId) (s : Session) : Prop :=
  ∀ chain e core, chainIndices s.entries target = .ok chain →
    foldChain env order s.entries s.handleFloors s.streamFloors chain {} = (.error e, core) →
    e ≠ .panic → { core with dom := s.core.dom } = s.core

variable {env order} {entries : List Entry} {handleFloors : List Nat} {streamFloors : List Sid}
  {target : EntryId} {chain : List Nat}

theorem rederiveChain_of_chain (h : chainIndices entries target = .ok chain) (core : Core) :
    rederiveChain env order entries handleFloors streamFloors target core =
      foldChain env order entries handleFloors streamFloors chain {} := by
  rw [rederiveChain, Action.bind_of_ok (by rw [Action.lift, h])]
  rfl

theorem rederiveChain_of_error {e : SessionError} (h : chainIndices entries target = .error e)
    (core : Core) :
    rederiveChain env order entries handleFloors streamFloors target core = (.error e, core) := by
  rw [rederiveChain, Action.bind_of_error (by rw [Action.lift, h])]

/-- Without floors the replay does not get past the first entry. -/
theorem foldChain_panic (hfloors : handleFloors = [] ∨ streamFloors = []) {e : SessionError}
    {core core' : Core}
    (h : foldChain env order entries handleFloors streamFloors chain core = (.error e, core')) :
    e = .panic := by
  cases chain with
  | nil => cases h
  | cons index chain =>
    have hat : foldAt env order entries handleFloors streamFloors index core =
        (.error .panic, core) := by
      rw [foldAt]
      rcases hfloors with rfl | rfl
      · simp [Action.fail]
      · simp [Action.fail]
    rw [foldChain, Action.bind_of_error hat] at h
    cases h
    rfl

/-- A rewind whose target has a chain replays that chain. -/
theorem rewind_of_chain {s : Session} (h : chainIndices s.entries target = .ok chain) :
    RewindKeeps env order target s ↔ ∀ e core,
      foldChain env order s.entries s.handleFloors s.streamFloors chain {} = (.error e, core) →
      e ≠ .panic → { core with dom := s.core.dom } = s.core := by
  have hknown : ∃ index, byId s.entries target = some index := by
    rw [chainIndices] at h
    split at h
    · cases h
    · next index hindex => exact ⟨index, hindex⟩
  obtain ⟨index, hindex⟩ := hknown
  simp only [RewindKeeps, rewind, hindex, rederiveChain_of_chain h]
  split
  · cases hfold : foldChain env order s.entries s.handleFloors s.streamFloors chain {} with
    | mk result core =>
      cases result with
      | ok => simp
      | error e =>
        constructor
        · rintro hkeeps _ _ ⟨⟩ hpanic
          exact congrArg Session.core (hkeeps e rfl hpanic)
        · rintro hcore _ ⟨⟩ hpanic
          exact congrArg (fun core => { s with core }) (hcore e core rfl hpanic)
  · next hfloors =>
    have hempty : s.handleFloors = [] ∨ s.streamFloors = [] := by
      by_contra hne
      rw [not_or] at hne
      exact hfloors _ _ (List.getLast?_eq_some_getLast hne.1) (List.getLast?_eq_some_getLast hne.2)
    constructor
    · intro _ e core hfold hpanic
      exact absurd (foldChain_panic hempty hfold) hpanic
    · rintro - _ ⟨⟩ hpanic
      exact absurd rfl hpanic

end Session

namespace Sample

/-- The codec of one value. -/
def codec {α : Type} (value : α) (text : String) : Codec α :=
  ⟨fun _ => text, fun read => if read = text then some value else none⟩

/-- A call of a tool. -/
def lsCall : ToolCall := { name := "ls", rev := 1, callId := "c1" }

/-- A response of a model. -/
def response : MsgAssistantStart := { model := "m", provider := "p", route := "r" }

/-- An update with a notice that is not one. -/
def numberedNotice : RawValue := "\x7b\"diag\":5\x7d"

/-- `serde_json` on the payloads of the sessions below; it reads no other text. -/
def serde : Serde where
  ignoredAny _ := true
  headerVersion _ := some 1
  value text :=
    if text = numberedNotice then some (.object [("diag", .number (.posInt 5))]) else none
  render _ := ""
  genesis := codec { version := 1, cwd := "/", created := "now" }
    "\x7b\"version\":1,\"cwd\":\"/\",\"created\":\"now\"\x7d"
  msgUser := ⟨fun _ => "", fun _ => none⟩
  msgAssistantStart := codec response
    "\x7b\"model\":\"m\",\"provider\":\"p\",\"route\":\"r\"\x7d"
  stream := ⟨fun _ => "", fun _ => none⟩
  msgAssistantEnd := ⟨fun _ => "", fun _ => none⟩
  toolCall := codec lsCall "\x7b\"name\":\"ls\",\"rev\":1,\"call_id\":\"c1\"\x7d"
  toolUpdate := ⟨fun update => update, some⟩
  toolResult := ⟨fun _ => "", fun _ => none⟩
  turnReceipt := ⟨fun _ => "", fun _ => none⟩
  patch := ⟨fun _ => "", fun _ => none⟩
  compaction := ⟨fun _ => "", fun _ => none⟩
  ops := ⟨fun _ => "", fun _ => none⟩
  attachments _ := ""
  recoveries _ := ""
  texts _ := ""
  skillPrompt _ := ""
  fileMentions := ⟨fun _ => "", fun _ => none⟩
  envelope _ := none
  parts _ := none
  diag _ := none

def env : Env := ⟨serde, fun _ => none⟩

def order : HashOrder := ⟨id, fun _ => .refl _⟩

/-- A write at the given millisecond. -/
def io (n : Nat) : Io := ⟨⟨n, 0, Nat.two_pow_pos 80⟩, .ok⟩

/-- The identity of the entry written at the given millisecond. -/
def at_ (n : Fin 16) : EntryId := ⟨n * 2 ^ 80, by omega⟩

/-- A session with a call in its first turn. -/
def called : Session :=
  let s := (Session.create env order (io 1) "/" "now").2
  let s := (Session.beginTurn env order (io 2) (io 2) s).2
  (Session.call env order (io 3) lsCall s).2

/-- The same after an update that is journaled and does not fold, and a second turn. -/
def secondTurn : Session :=
  let s := (Session.callUpdate env order (io 4) (at_ 3) numberedNotice called).2
  (Session.beginTurn env order (io 5) (io 5) s).2

end Sample

end OhMyPi
