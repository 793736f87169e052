import OhMyPi.Approvals.Answers

/-! What a prompt may be answered with when nobody is asked: every requirement rests on a decision
somebody was asked for. Whether that somebody was human is not looked at. -/

namespace OhMyPi

/-- A decision that later prompts may rest on. -/
def ApprovalDecision.Approves (decision : ApprovalDecision) : Prop :=
  decision.approved = true ∧ (decision.scope = .session ∨ decision.scope = .persist)

/-- A decision of the user or of an authenticated external approver; every other source is
non-human. -/
def ApprovalDecision.Human (decision : ApprovalDecision) : Prop :=
  decision.source = .user ∨ decision.source = .external

/-- A ticket as it stands in the tree once answered: after asking, or from the decisions that cover
its requirements. -/
structure Answer where
  ticket : ApprovalTicket
  grants : Option (List Grant)
deriving DecidableEq

/-- The decision somebody was asked for on which the approval of a kind and subject by a ticket
rests, through whatever grants lie between. -/
inductive Origin (answers : List Answer) : String → String → String → ApprovalDecision → Prop
  | asked {answer : Answer} {decision : ApprovalDecision} {spec : ApprovalSpec}
    (hmem : answer ∈ answers) (hasked : answer.grants = none)
    (hdecision : answer.ticket.decision = some decision) (happroves : decision.Approves)
    (hspec : spec ∈ answer.ticket.reasons) (hoffers : spec.offers decision.scope = true) :
    Origin answers answer.ticket.ticketId spec.kind spec.subject decision
  | granted {answer : Answer} {grants : List Grant} {decision : ApprovalDecision}
    {spec : ApprovalSpec} {grant : Grant} (hmem : answer ∈ answers)
    (hgrants : answer.grants = some grants)
    (hzip : (spec, grant) ∈ answer.ticket.reasons.zip grants)
    (horigin : Origin answers grant.ticketId spec.kind spec.subject decision) :
    Origin answers answer.ticket.ticketId spec.kind spec.subject decision

/-- Grants never widen authority. Each requirement of a prompt that was answered without asking
rests on an earlier decision that somebody was asked for, which approved its kind and subject for
the session or persistently on a requirement that offered that; the answer's scope is offered by
every requirement; and one that demands a human rests on a human. -/
def Narrow (answers : List Answer) : Prop :=
  ∀ i answer grants, answers[i]? = some answer → answer.grants = some grants →
    ∃ decision, answer.ticket.decision = some decision ∧
      grants.length = answer.ticket.reasons.length ∧
      (∀ spec ∈ answer.ticket.reasons, spec.offers decision.scope = true) ∧
      ∀ spec grant, (spec, grant) ∈ answer.ticket.reasons.zip grants →
        (∃ d, Origin (answers.take i) grant.ticketId spec.kind spec.subject d) ∧
        (spec.requireHuman = true →
          ∀ d, Origin (answers.take i) grant.ticketId spec.kind spec.subject d → d.Human)

variable {answers : List Answer} {id kind subject : String} {d : ApprovalDecision}

theorem Origin.mono (h : Origin answers id kind subject d) (more : List Answer) :
    Origin (answers ++ more) id kind subject d := by
  induction h with
  | asked hmem hasked hdecision happroves hspec hoffers =>
    exact .asked (List.mem_append_left _ hmem) hasked hdecision happroves hspec hoffers
  | granted hmem hgrants hzip _ ih =>
    exact .granted (List.mem_append_left _ hmem) hgrants hzip ih

/-- Every decision somebody was asked for that approves the kind and subject is a human one. -/
def HumanOnly (answers : List Answer) (kind subject : String) : Prop :=
  ∀ answer ∈ answers, answer.grants = none → ∀ decision, answer.ticket.decision = some decision →
    decision.Approves → ∀ spec ∈ answer.ticket.reasons, spec.kind = kind → spec.subject = subject →
      spec.offers decision.scope = true → decision.Human

theorem Origin.human (h : Origin answers id kind subject d)
    (honly : HumanOnly answers kind subject) : d.Human := by
  induction h with
  | asked hmem hasked hdecision happroves hspec hoffers =>
    exact honly _ hmem hasked _ hdecision happroves _ hspec rfl rfl hoffers
  | granted _ _ _ _ ih => exact ih honly

/-! ## What covers a requirement -/

theorem map_fst_coverRound (decided : ApprovalTicket) (decision : ApprovalDecision)
    (slots : List (ApprovalSpec × Option Grant)) :
    (coverRound decided decision slots).map Prod.fst = slots.map Prod.fst := by
  induction slots with
  | nil => rfl
  | cons slot slots ih =>
    obtain ⟨spec, grant⟩ := slot
    cases grant with
    | none => rw [coverRound, List.map_cons, ih, List.map_cons]
    | some grant => rw [coverRound, List.map_cons, ih, List.map_cons]

theorem map_fst_cover (ticket : ApprovalTicket) (tickets : List ApprovalTicket)
    (slots : List (ApprovalSpec × Option Grant)) :
    (cover ticket tickets slots).map Prod.fst = slots.map Prod.fst := by
  induction tickets generalizing slots with
  | nil => rfl
  | cons decided tickets ih =>
    rw [cover]
    cases decided.granting ticket with
    | none => exact ih slots
    | some decision =>
      dsimp only
      split
      · exact map_fst_coverRound decided decision slots
      · rw [ih, map_fst_coverRound]

theorem mem_coverRound {decided : ApprovalTicket} {decision : ApprovalDecision}
    {slots : List (ApprovalSpec × Option Grant)} {spec : ApprovalSpec} {grant : Grant}
    (h : (spec, some grant) ∈ coverRound decided decision slots) :
    (spec, some grant) ∈ slots ∨
      (decided.covers decision spec = true ∧ grant.ticketId = decided.ticketId) := by
  induction slots with
  | nil => cases h
  | cons slot slots ih =>
    obtain ⟨spec', grant'⟩ := slot
    cases grant' with
    | some grant' =>
      rw [coverRound] at h
      rcases List.mem_cons.1 h with heq | hmem
      · exact .inl (heq ▸ List.mem_cons_self)
      · exact (ih hmem).imp_left (List.mem_cons_of_mem _)
    | none =>
      rw [coverRound] at h
      rcases List.mem_cons.1 h with heq | hmem
      · obtain ⟨rfl, hgrant⟩ := Prod.mk.inj heq
        split at hgrant
        next hcovers =>
          cases hgrant
          exact .inr ⟨hcovers, rfl⟩
        next => cases hgrant
      · exact (ih hmem).imp_left (List.mem_cons_of_mem _)

theorem mem_cover {ticket : ApprovalTicket} {tickets : List ApprovalTicket}
    {slots : List (ApprovalSpec × Option Grant)} {spec : ApprovalSpec} {grant : Grant}
    (h : (spec, some grant) ∈ cover ticket tickets slots) :
    (spec, some grant) ∈ slots ∨
      ∃ decided ∈ tickets, ∃ decision, decided.granting ticket = some decision ∧
        decided.covers decision spec = true ∧ grant.ticketId = decided.ticketId := by
  induction tickets generalizing slots with
  | nil => exact .inl h
  | cons decided tickets ih =>
    rw [cover] at h
    cases hgranting : decided.granting ticket with
    | none =>
      rw [hgranting] at h
      refine (ih h).imp_right ?_
      rintro ⟨other, hother, hrest⟩
      exact ⟨other, List.mem_cons_of_mem _ hother, hrest⟩
    | some decision =>
      rw [hgranting] at h
      have hround : ∀ hmem : (spec, some grant) ∈ coverRound decided decision slots,
          (spec, some grant) ∈ slots ∨ ∃ other ∈ decided :: tickets, ∃ decision,
            other.granting ticket = some decision ∧ other.covers decision spec = true ∧
              grant.ticketId = other.ticketId := by
        intro hmem
        refine (mem_coverRound hmem).imp_right fun hcovers => ?_
        exact ⟨decided, List.mem_cons_self, decision, hgranting, hcovers⟩
      dsimp only at h
      split at h
      · exact hround h
      · rcases ih h with hmem | ⟨other, hother, hrest⟩
        · exact hround hmem
        · exact .inr ⟨other, List.mem_cons_of_mem _ hother, hrest⟩

theorem mapM_snd_eq_some {α β : Type} {l : List (α × Option β)} {values : List β}
    (h : l.mapM Prod.snd = some values) : values.length = l.length ∧
      ∀ a b, (a, b) ∈ (l.map Prod.fst).zip values → (a, some b) ∈ l := by
  induction l generalizing values with
  | nil =>
    cases h
    exact ⟨rfl, fun a b hmem => by cases hmem⟩
  | cons slot l ih =>
    obtain ⟨a, b⟩ := slot
    rw [List.mapM_cons] at h
    obtain ⟨b, hb, hrest⟩ := Option.bind_eq_some_iff.1 h
    obtain ⟨values', hvalues, hvalues'⟩ := Option.bind_eq_some_iff.1 hrest
    cases hvalues'
    cases hb
    obtain ⟨hlength, hmem⟩ := ih hvalues
    refine ⟨congrArg Nat.succ hlength, ?_⟩
    intro a' b' hzip
    rcases List.mem_cons.1 hzip with heq | hzip
    · cases heq
      exact List.mem_cons_self
    · exact List.mem_cons_of_mem _ (hmem a' b' hzip)

/-- Each requirement is covered by the decision on a ticket of the tree. -/
theorem coveringGrants_eq_some {p : Prompts} {ticket : ApprovalTicket} {grants : List Grant}
    (h : coveringGrants p ticket = some grants) : grants.length = ticket.reasons.length ∧
      ∀ spec grant, (spec, grant) ∈ ticket.reasons.zip grants →
        ∃ entry ∈ p.tickets, ∃ decision, entry.2.granting ticket = some decision ∧
          entry.2.covers decision spec = true ∧ grant.ticketId = entry.2.ticketId := by
  obtain ⟨hlength, hmem⟩ := mapM_snd_eq_some h
  have hfst := map_fst_cover ticket (p.tickets.map Prod.snd)
    (ticket.reasons.map fun spec => (spec, none))
  have hreasons : (ticket.reasons.map fun spec => (spec, (none : Option Grant))).map Prod.fst =
      ticket.reasons := by
    rw [List.map_map]
    exact List.map_id' _
  rw [hreasons] at hfst
  rw [hfst] at hmem
  refine ⟨?_, ?_⟩
  · rw [hlength, ← List.length_map (f := Prod.fst), hfst]
  · intro spec grant hzip
    rcases mem_cover (hmem spec grant hzip) with hslot | ⟨decided, hdecided, hrest⟩
    · obtain ⟨_, _, heq⟩ := List.mem_map.1 hslot
      cases heq
    · obtain ⟨entry, hentry, rfl⟩ := List.mem_map.1 hdecided
      exact ⟨entry, hentry, hrest⟩

theorem granting_eq_some {decided ticket : ApprovalTicket} {decision : ApprovalDecision}
    (h : decided.granting ticket = some decision) :
    decided.decision = some decision ∧ decision.Approves := by
  rw [ApprovalTicket.granting, Option.filter_eq_some_iff] at h
  obtain ⟨hdecision, hgranting⟩ := h
  simp only [Bool.and_eq_true, Bool.or_eq_true, decide_eq_true_eq] at hgranting
  exact ⟨hdecision, hgranting.1⟩

theorem covers_eq_true {decided : ApprovalTicket} {decision : ApprovalDecision}
    {spec : ApprovalSpec} (h : decided.covers decision spec = true) :
    ∃ granted ∈ decided.reasons, granted.kind = spec.kind ∧ granted.subject = spec.subject ∧
      granted.offers decision.scope = true := by
  rw [ApprovalTicket.covers, Bool.and_eq_true, List.any_eq_true] at h
  obtain ⟨-, granted, hgranted, hall⟩ := h
  simp only [Bool.and_eq_true, decide_eq_true_eq] at hall
  exact ⟨granted, hgranted, hall.1.1, hall.1.2, hall.2⟩

/-- What an automatic answer is made of. -/
theorem sessionGrant_eq_some {p : Prompts} {ticket : ApprovalTicket} {grant : ApprovalDecision}
    (h : sessionGrant p ticket = some grant) : (∃ grants, coveringGrants p ticket = some grants) ∧
      ∀ spec ∈ ticket.reasons, spec.offers grant.settled.scope = true := by
  rw [sessionGrant] at h
  split at h
  next => cases h
  next =>
    cases hcovering : coveringGrants p ticket with
    | none =>
      rw [hcovering] at h
      cases h
    | some grants =>
      rw [hcovering] at h
      dsimp only at h
      cases hoffers : ticket.offers
          (if grants.all (·.scope = .persist) then ApprovalScope.persist else .session) with
      | false =>
        rw [hoffers] at h
        cases h
      | true =>
        rw [if_pos hoffers] at h
        rw [ApprovalTicket.offers, Bool.and_eq_true, List.all_eq_true] at hoffers
        cases h
        refine ⟨⟨grants, rfl⟩, ?_⟩
        intro spec hspec
        have hscope : ∀ b : Bool, (if b then ApprovalScope.persist else .session).settled =
            if b then ApprovalScope.persist else .session := by decide
        rw [ApprovalDecision.settled, hscope]
        exact hoffers.2 spec hspec

/-! ## Histories -/

/-- A run of the desk, with the answers given so far. -/
structure GrantHistory where
  desk : ApprovalDesk
  answers : List Answer := []

/-- The answer a decision gives, when it is the first on its ticket. -/
def answerOf (result : Except ApprovalError (ApprovalTicket × Option AppendOutcome))
    (grants : Option (List Grant)) : Option Answer :=
  match result with
  | .ok (ticket, some (.appended _)) => some { ticket := ticket.settled, grants }
  | _ => none

/-- The answer a filing gives without asking. -/
def filed (p : Prompts) (invocationId : Option String) (reasons : List ApprovalSpec)
    (createdAtMs : UInt64) (opening deciding : Append) : Option Answer :=
  match ApprovalBook.openFor invocationId reasons createdAtMs opening p with
  | (.error _, _) => none
  | (.ok ticket, q) =>
    match sessionGrant q ticket with
    | none => none
    | some grant =>
      answerOf (ApprovalBook.decideInner ticket.ticketId grant none deciding q).1
        (coveringGrants q ticket)

/-- The answer one step of the desk gives. -/
def ApprovalDesk.answer (desk : ApprovalDesk) : ApprovalDesk.Move → Option Answer
  | .file invocationId reasons createdAtMs opening deciding =>
    filed desk.prompts invocationId reasons createdAtMs opening deciding
  | .fileSpecs callId specs now opening deciding =>
    filed desk.prompts (some callId) specs now opening deciding
  | .decide id decision append =>
    answerOf (ApprovalBook.decideInner id decision none append desk.prompts).1 none
  | .decideKeyed id decision key append =>
    match desk.prompts.replayKeyed key id decision with
    | .ok none => answerOf (ApprovalBook.decideInner id decision (some key) append desk.prompts).1 none
    | _ => none
  | _ => none

/-- The requirements of the prompt that a step files. -/
def ApprovalDesk.asks (desk : ApprovalDesk) : ApprovalDesk.Move → List ApprovalSpec
  | .file invocationId reasons .. => merged desk invocationId reasons
  | .fileSpecs callId specs .. => merged desk (some callId) specs
  | _ => []
where
  merged (desk : ApprovalDesk) (invocationId : Option String) (reasons : List ApprovalSpec) :=
    match ApprovalBook.existing desk.prompts invocationId with
    | some (_, ticket) => ticket.reasons ++ reasons
    | none => reasons

namespace GrantHistory

def start (highWater entryCount : Nat) (keys : String → Option KeyUse) : GrantHistory :=
  { desk := .start highWater entryCount keys }

def step (history : GrantHistory) (move : ApprovalDesk.Move) : GrantHistory :=
  { desk := history.desk.step move
    answers := history.answers ++ (history.desk.answer move).toList }

def run (history : GrantHistory) (moves : List ApprovalDesk.Move) : GrantHistory :=
  moves.foldl step history

/-- A step that files a requirement demanding a human only where no other decision stands that
approves its kind and subject. -/
def Sound (history : GrantHistory) (move : ApprovalDesk.Move) : Prop :=
  ∀ spec ∈ history.desk.asks move, spec.requireHuman = true →
    HumanOnly history.answers spec.kind spec.subject

def SoundRun (history : GrantHistory) : List ApprovalDesk.Move → Prop
  | [] => True
  | move :: moves => history.Sound move ∧ (history.step move).SoundRun moves

end GrantHistory

/-! ## Decided tickets -/

namespace Prompts

/-- A decided ticket of the tree. -/
def Decided (p : Prompts) (ticket : ApprovalTicket) : Prop :=
  ticket.decision ≠ none ∧ ∃ entry ∈ p.tickets, entry.2 = ticket

variable {p q : Prompts}

theorem decided_setTicket {handle : Nat} {ticket t : ApprovalTicket}
    (hq : q.tickets = (p.setTicket handle ticket).tickets) (h : q.Decided t) :
    p.Decided t ∨ t = ticket.settled := by
  obtain ⟨hdecision, entry, hentry, rfl⟩ := h
  rw [hq] at hentry
  rcases mem_setTicket hentry with ⟨hmem, -⟩ | rfl
  · exact .inl ⟨hdecision, entry, hmem, rfl⟩
  · exact .inr rfl

theorem decided_insert {ticket t : ApprovalTicket}
    (hq : q.tickets = (p.insert ticket).tickets) (h : q.Decided t) :
    p.Decided t ∨ t = ticket.settled := by
  obtain ⟨hdecision, entry, hentry, rfl⟩ := h
  rw [hq] at hentry
  rcases List.mem_append.1 hentry with hmem | hmem
  · exact .inl ⟨hdecision, entry, hmem, rfl⟩
  · cases List.mem_singleton.1 hmem
    exact .inr rfl

theorem not_decided_settled {ticket : ApprovalTicket} (h : ticket.decision = none)
    (hdecided : q.Decided ticket.settled) : p.Decided ticket.settled := by
  refine absurd ?_ hdecided.1
  rw [ApprovalTicket.settled, h]
  rfl

end Prompts

namespace ApprovalBook

variable {p : Prompts}

/-- Filing decides nothing; the ticket it leaves has the requirements asked for. -/
theorem openFor_decided (h : p.Inv) (invocationId : Option String) (reasons : List ApprovalSpec)
    (createdAtMs : UInt64) (append : Append) :
    ∃ result q, openFor invocationId reasons createdAtMs append p = (result, q) ∧ q.Inv ∧
      (∀ t, q.Decided t → p.Decided t) ∧
      ∀ ticket, result = .ok ticket → (∃ entry ∈ q.tickets, entry.2 = ticket.settled) ∧
        ticket.reasons = (match existing p invocationId with
          | some (_, old) => old.reasons ++ reasons
          | none => reasons) := by
  rcases openFor_cases h invocationId reasons createdAtMs append with
    ⟨e, hopen⟩ | ⟨ticket, q, hopen, hq, -, -, hcase⟩
  · exact ⟨_, _, hopen, h, fun _ ht => ht, fun ticket hok => by cases hok⟩
  · rcases hcase with ⟨handle, old, hexisting, rfl, rfl⟩ | ⟨hexisting, -, rfl⟩
    · obtain ⟨hmem, hpending⟩ := existing_eq_some hexisting
      have hnone := h.decision_eq_none hmem hpending
      refine ⟨_, _, hopen, hq, ?_, ?_⟩
      · intro t ht
        rcases Prompts.decided_setTicket rfl ht with hold | rfl
        · exact hold
        · exact Prompts.not_decided_settled hnone ht
      · intro ticket hok
        cases hok
        rw [hexisting]
        exact ⟨⟨_, Prompts.mem_setTicket_self hmem rfl, rfl⟩, rfl⟩
    · rw [openFor, hexisting] at hopen
      cases append with
      | error e => cases hopen
      | ok entry =>
        cases hopen
        refine ⟨_, _, by rw [openFor, hexisting]; rfl, hq, ?_, ?_⟩
        · intro t ht
          rcases Prompts.decided_insert rfl ht with hold | rfl
          · exact hold
          · exact Prompts.not_decided_settled rfl ht
        · intro ticket hok
          cases hok
          rw [hexisting]
          exact ⟨⟨_, List.mem_append_right _ (List.mem_singleton_self _), rfl⟩, rfl⟩

/-- A decision decides at most the ticket it answers. -/
theorem decideInner_decided (h : p.Inv) (id : String) (decision : ApprovalDecision)
    (key : Option String) (append : Append) (grants : Option (List Grant)) :
    ∃ result q, decideInner id decision key append p = (result, q) ∧ q.Inv ∧
      ((answerOf result grants = none ∧ q = p) ∨
        ∃ handle old, (handle, old) ∈ p.tickets ∧ old.ticketId = id ∧
          answerOf result grants = some
            { ticket := { old with state := .decided, decision := some decision.settled }, grants } ∧
          ∀ t, q.Decided t → p.Decided t ∨
            t = { old with state := .decided, decision := some decision.settled }) := by
  rcases decideInner_cases h id decision key append with
    ⟨e, hdecide⟩ | ⟨ticket, handle, hdecide, -⟩ | ⟨ticket, entry, -, hdecide⟩ |
      ⟨ticket, entry, q, hdecide, hid, hq, -, -, handle, old, hmem, -, rfl, htickets⟩
  · exact ⟨_, _, hdecide, h, .inl ⟨rfl, rfl⟩⟩
  · exact ⟨_, _, hdecide, h, .inl ⟨rfl, rfl⟩⟩
  · exact ⟨_, _, hdecide, h, .inl ⟨rfl, rfl⟩⟩
  · refine ⟨_, _, hdecide, hq, .inr ⟨handle, old, hmem, hid, rfl, ?_⟩⟩
    intro t ht
    exact Prompts.decided_setTicket htickets ht

theorem withdraw_decided (h : p.Inv) (id : String) (append : Append) :
    ∃ result q, withdraw id append p = (result, q) ∧ q.Inv ∧ ∀ t, q.Decided t → p.Decided t := by
  obtain ⟨result, q, hwithdraw, hq, -, hcase⟩ := withdraw_cases h id append
  refine ⟨result, q, hwithdraw, hq, ?_⟩
  intro t ht
  rcases hcase with htickets | ⟨handle, old, -, hnone, htickets⟩
  · obtain ⟨hdecision, entry, hentry, heq⟩ := ht
    exact ⟨hdecision, entry, htickets ▸ hentry, heq⟩
  · rcases Prompts.decided_setTicket htickets ht with hold | rfl
    · exact hold
    · exact Prompts.not_decided_settled hnone ht

end ApprovalBook

/-! ## What a step does to the prompts -/

namespace ApprovalDesk

variable {desk : ApprovalDesk}

/-- The prompts after a filing. -/
def filedPrompts (p : Prompts) (invocationId : Option String) (reasons : List ApprovalSpec)
    (createdAtMs : UInt64) (opening deciding : Append) : Prompts :=
  match ApprovalBook.openFor invocationId reasons createdAtMs opening p with
  | (.error _, q) => q
  | (.ok ticket, q) =>
    match sessionGrant q ticket with
    | none => q
    | some grant => (ApprovalBook.decideInner ticket.ticketId grant none deciding q).2

theorem booking_decide_prompts (id : String) (decision : ApprovalDecision) (append : Append)
    (desk : ApprovalDesk) : (booking (ApprovalBook.decide id decision append) desk).2.prompts =
      (ApprovalBook.decideInner id decision none append desk.prompts).2 := by
  cases h : ApprovalBook.decideInner id decision none append desk.prompts with
  | mk result q =>
    cases result with
    | error e => rw [booking_eq (ApprovalBook.decide_of_error h)]
    | ok found => rw [booking_eq (ApprovalBook.decide_of_ok h)]

theorem fileSpecs_prompts (callId : String) (specs : List ApprovalSpec) (now : UInt64)
    (opening deciding : Append) (desk : ApprovalDesk) :
    (fileSpecs callId specs now opening deciding desk).2.prompts =
      filedPrompts desk.prompts (some callId) specs now opening deciding := by
  rw [filedPrompts, fileSpecs]
  cases hopen : ApprovalBook.openFor (some callId) specs now opening desk.prompts with
  | mk result q =>
    cases result with
    | error e => rw [Action.bind_of_error (booking_eq hopen)]
    | ok ticket =>
      rw [Action.bind_of_ok (booking_eq hopen)]
      cases hgrant : sessionGrant q ticket with
      | none => simp only [Action.bind_reads_ok, hgrant]; rfl
      | some grant =>
        simp only [Action.bind_reads_ok, hgrant]
        exact booking_decide_prompts ticket.ticketId grant deciding _

theorem file_prompts (invocationId : Option String) (reasons : List ApprovalSpec)
    (createdAtMs : UInt64) (opening deciding : Append) (desk : ApprovalDesk) :
    (file invocationId reasons createdAtMs opening deciding desk).2.prompts =
      filedPrompts desk.prompts invocationId reasons createdAtMs opening deciding := by
  rw [filedPrompts, file]
  cases hopen : ApprovalBook.openFor invocationId reasons createdAtMs opening desk.prompts with
  | mk result q =>
    cases result with
    | error e => rw [Action.bind_of_error (booking_eq hopen)]
    | ok ticket =>
      rw [Action.bind_of_ok (booking_eq hopen)]
      cases hgrant : sessionGrant q ticket with
      | none => simp only [Action.bind_reads_ok, hgrant]; rfl
      | some grant =>
        have hdecide := booking_decide_prompts ticket.ticketId grant deciding
          { desk with prompts := q }
        simp only [Action.bind_reads_ok, hgrant]
        cases hbooking : booking (ApprovalBook.decide ticket.ticketId grant deciding)
            { desk with prompts := q } with
        | mk result next =>
          rw [hbooking] at hdecide
          cases result with
          | error e =>
            rw [Action.bind_of_error hbooking]
            exact hdecide
          | ok final =>
            rw [Action.bind_of_ok hbooking]
            exact hdecide

theorem decide_prompts (id : String) (decision : ApprovalDecision) (append : Append)
    (desk : ApprovalDesk) : (ApprovalDesk.decide id decision append desk).2.prompts =
      (ApprovalBook.decideInner id decision none append desk.prompts).2 := by
  have hdecide := booking_decide_prompts id decision append desk
  rw [ApprovalDesk.decide]
  cases hbooking : booking (ApprovalBook.decide id decision append) desk with
  | mk result next =>
    rw [hbooking] at hdecide
    cases result with
    | error e =>
      rw [Action.bind_of_error hbooking]
      exact hdecide
    | ok ticket =>
      rw [Action.bind_of_ok hbooking]
      exact (relay_prompts id decision next).trans hdecide

theorem decideKeyed_prompts (id : String) (decision : ApprovalDecision) (key : String)
    (append : Append) (desk : ApprovalDesk) :
    (decideKeyed id decision key append desk).2.prompts =
      match desk.prompts.replayKeyed key id decision with
      | .ok none => (ApprovalBook.decideInner id decision (some key) append desk.prompts).2
      | _ => desk.prompts := by
  rw [decideKeyed]
  cases hreplayed : desk.prompts.replayKeyed key id decision with
  | error e =>
    rw [Action.bind_of_error (e := .session e) (t := desk) (by rw [Action.reads, hreplayed])]
  | ok replayed =>
    rw [Action.bind_of_ok (a := replayed) (t := desk) (by rw [Action.reads, hreplayed])]
    cases replayed with
    | some entry => rfl
    | none =>
      cases hdecide : ApprovalBook.decideInner id decision (some key) append desk.prompts with
      | mk result q =>
        cases result with
        | error e => simp only [Action.bind_of_error (booking_eq hdecide)]
        | ok found =>
          obtain ⟨ticket, outcome⟩ := found
          simp only [Action.bind_of_ok (booking_eq hdecide)]
          cases outcome with
          | none => rfl
          | some outcome =>
            cases outcome with
            | appended entry => exact relay_prompts id decision _
            | replayed entry => rfl

theorem withdrawAll_decided (appends : String → Append) (ids : List String) :
    ∀ {desk : ApprovalDesk}, desk.prompts.Inv →
      (withdrawAll appends ids desk).2.prompts.Inv ∧
        ∀ t, (withdrawAll appends ids desk).2.prompts.Decided t → desk.prompts.Decided t := by
  induction ids with
  | nil => exact fun h => ⟨h, fun _ ht => ht⟩
  | cons id ids ih =>
    intro desk h
    obtain ⟨result, q, hwithdraw, hq, hdecided⟩ :=
      ApprovalBook.withdraw_decided h id (appends id)
    rw [withdrawAll]
    cases result with
    | error e =>
      rw [Action.bind_of_error (booking_eq hwithdraw)]
      exact ⟨hq, hdecided⟩
    | ok ticket =>
      rw [Action.bind_of_ok (booking_eq hwithdraw)]
      obtain ⟨hinv, hrest⟩ := @ih { desk with prompts := q } hq
      exact ⟨hinv, fun t ht => hdecided t (hrest t ht)⟩

end ApprovalDesk

/-! ## Histories stay narrow -/

namespace GrantHistory

variable {history : GrantHistory}

structure Inv (history : GrantHistory) : Prop where
  prompts : history.desk.prompts.Inv
  answered : ∀ t, history.desk.prompts.Decided t → ∃ answer ∈ history.answers, answer.ticket = t
  traced : ∀ answer ∈ history.answers, ∀ decision, answer.ticket.decision = some decision →
    decision.Approves → ∀ spec ∈ answer.ticket.reasons, spec.offers decision.scope = true →
      ∃ d, Origin history.answers answer.ticket.ticketId spec.kind spec.subject d
  narrow : Narrow history.answers

/-- A step that answers nothing. -/
theorem Inv.quiet (h : history.Inv) {desk : ApprovalDesk} (hprompts : desk.prompts.Inv)
    (hdecided : ∀ t, desk.prompts.Decided t → history.desk.prompts.Decided t) :
    { history with desk }.Inv :=
  ⟨hprompts, fun t ht => h.answered t (hdecided t ht), h.traced, h.narrow⟩

/-- One more answer, traced and narrow itself. -/
theorem Inv.push (h : history.Inv) {desk : ApprovalDesk} {answer : Answer}
    (hprompts : desk.prompts.Inv)
    (hdecided : ∀ t, desk.prompts.Decided t → history.desk.prompts.Decided t ∨ t = answer.ticket)
    (htraced : ∀ decision, answer.ticket.decision = some decision → decision.Approves →
      ∀ spec ∈ answer.ticket.reasons, spec.offers decision.scope = true →
        ∃ d, Origin (history.answers ++ [answer]) answer.ticket.ticketId spec.kind spec.subject d)
    (hnarrow : ∀ grants, answer.grants = some grants →
      ∃ decision, answer.ticket.decision = some decision ∧
        grants.length = answer.ticket.reasons.length ∧
        (∀ spec ∈ answer.ticket.reasons, spec.offers decision.scope = true) ∧
        ∀ spec grant, (spec, grant) ∈ answer.ticket.reasons.zip grants →
          (∃ d, Origin history.answers grant.ticketId spec.kind spec.subject d) ∧
          (spec.requireHuman = true →
            ∀ d, Origin history.answers grant.ticketId spec.kind spec.subject d → d.Human)) :
    Inv { desk, answers := history.answers ++ [answer] } := by
  refine ⟨hprompts, ?_, ?_, ?_⟩
  · intro t ht
    rcases hdecided t ht with hold | rfl
    · obtain ⟨other, hother, heq⟩ := h.answered t hold
      exact ⟨other, List.mem_append_left _ hother, heq⟩
    · exact ⟨answer, List.mem_append_right _ (List.mem_singleton_self _), rfl⟩
  · intro other hother decision hdecision happroves spec hspec hoffers
    rcases List.mem_append.1 hother with hmem | hmem
    · obtain ⟨d, hd⟩ := h.traced other hmem decision hdecision happroves spec hspec hoffers
      exact ⟨d, hd.mono _⟩
    · cases List.mem_singleton.1 hmem
      exact htraced decision hdecision happroves spec hspec hoffers
  · intro i other grants hi hgrants
    rw [List.getElem?_append] at hi
    split at hi
    next hlt =>
      rw [List.take_append_of_le_length hlt.le]
      exact h.narrow i other grants hi hgrants
    next hge =>
      have hi' := (List.getElem?_eq_some_iff.1 hi).1
      rw [List.length_singleton] at hi'
      have heq : i = history.answers.length := by omega
      cases List.mem_singleton.1 (List.mem_of_getElem? hi)
      rw [heq, List.take_left]
      exact hnarrow grants hgrants

/-- A decision that was asked for is its own origin. -/
theorem Inv.asked (h : history.Inv) {desk : ApprovalDesk} {p : Prompts}
    (hp : p = history.desk.prompts) (id : String) (decision : ApprovalDecision)
    (key : Option String) (append : Append)
    (hdesk : desk.prompts = (ApprovalBook.decideInner id decision key append p).2) :
    Inv { desk, answers := history.answers ++
      (answerOf (ApprovalBook.decideInner id decision key append p).1 none).toList } := by
  subst hp
  obtain ⟨result, q, hdecide, hq, hcase⟩ :=
    ApprovalBook.decideInner_decided h.prompts id decision key append none
  rw [hdecide] at hdesk ⊢
  rcases hcase with ⟨hnone, rfl⟩ | ⟨handle, old, -, -, hanswer, hdecided⟩
  · rw [hnone, Option.toList_none, List.append_nil]
    apply h.quiet
    · rw [hdesk]
      exact hq
    · rw [hdesk]
      exact fun _ ht => ht
  · rw [hanswer, Option.toList_some]
    apply h.push
    · rw [hdesk]
      exact hq
    · rw [hdesk]
      exact hdecided
    · intro decision' hdecision happroves spec hspec hoffers
      exact ⟨decision', .asked (List.mem_append_right _ (List.mem_singleton_self _)) rfl hdecision
        happroves hspec hoffers⟩
    · intro grants hgrants
      cases hgrants

/-- An answer given without asking rests on what covers it. -/
theorem Inv.filed (h : history.Inv) {desk : ApprovalDesk} (invocationId : Option String)
    (reasons : List ApprovalSpec) (createdAtMs : UInt64) (opening deciding : Append)
    (hsound : ∀ spec ∈ ApprovalDesk.asks.merged history.desk invocationId reasons,
      spec.requireHuman = true → HumanOnly history.answers spec.kind spec.subject)
    (hdesk : desk.prompts = ApprovalDesk.filedPrompts history.desk.prompts invocationId reasons
      createdAtMs opening deciding) :
    Inv { desk, answers := history.answers ++ (OhMyPi.filed history.desk.prompts invocationId reasons
      createdAtMs opening deciding).toList } := by
  obtain ⟨result, q, hopen, hq, hdecided, hok⟩ := ApprovalBook.openFor_decided h.prompts
    invocationId reasons createdAtMs opening
  rw [ApprovalDesk.filedPrompts, hopen] at hdesk
  rw [OhMyPi.filed, hopen]
  have hquiet : desk.prompts = q → Inv { desk, answers := history.answers } := by
    intro heq
    apply h.quiet
    · rw [heq]
      exact hq
    · rw [heq]
      exact hdecided
  cases result with
  | error e =>
    rw [Option.toList_none, List.append_nil]
    exact hquiet hdesk
  | ok ticket =>
    obtain ⟨⟨entry, hentry, hticket⟩, hreasons⟩ := hok ticket rfl
    dsimp only at hdesk ⊢
    cases hgrant : sessionGrant q ticket with
    | none =>
      rw [hgrant] at hdesk
      rw [Option.toList_none, List.append_nil]
      exact hquiet hdesk
    | some grant =>
      rw [hgrant] at hdesk
      dsimp only at hdesk ⊢
      obtain ⟨⟨grants, hgrants⟩, hoffers⟩ := sessionGrant_eq_some hgrant
      obtain ⟨hlength, hcovered⟩ := coveringGrants_eq_some hgrants
      rw [hgrants]
      obtain ⟨result, q', hdecide, hq', hcase⟩ := ApprovalBook.decideInner_decided hq
        ticket.ticketId grant none deciding (some grants)
      rw [hdecide] at hdesk ⊢
      rcases hcase with ⟨hnone, rfl⟩ | ⟨handle, old, hmem, hid, hanswer, hdecided'⟩
      · rw [hnone, Option.toList_none, List.append_nil]
        exact hquiet hdesk
      · have hold : old.reasons = ticket.reasons := by
          have heq := hq.eq_of_ticketId hmem hentry 
            (hid.trans (congrArg ApprovalTicket.ticketId hticket).symm)
          rw [show old = entry.2 from congrArg Prod.snd heq, hticket]
          rfl
        -- what covers a requirement was answered before, and can be traced
        have hrests : ∀ spec grant, (spec, grant) ∈ ticket.reasons.zip grants →
            ∃ d, Origin history.answers grant.ticketId spec.kind spec.subject d := by
          intro spec grant' hzip
          obtain ⟨covering, hcovering, decision, hgranting, hcovers, hcoverId⟩ :=
            hcovered spec grant' hzip
          obtain ⟨hdecision, happroves⟩ := granting_eq_some hgranting
          obtain ⟨granted, hgranted, hkind, hsubject, hoffered⟩ := covers_eq_true hcovers
          obtain ⟨answer, hanswered, heq⟩ := h.answered covering.2 (hdecided _
            ⟨by rw [hdecision]; exact Option.some_ne_none decision, covering, hcovering, rfl⟩)
          obtain ⟨d, hd⟩ := h.traced answer hanswered decision (heq ▸ hdecision) happroves granted
            (heq ▸ hgranted) hoffered
          rw [heq, hkind, hsubject, ← hcoverId] at hd
          exact ⟨d, hd⟩
        rw [hanswer, Option.toList_some]
        apply h.push
        · rw [hdesk]
          exact hq'
        · rw [hdesk]
          exact fun t ht => (hdecided' t ht).imp_left (hdecided t)
        · intro decision _ _ spec hspec _
          have hspec' : spec ∈ ticket.reasons := hold ▸ hspec
          obtain ⟨i, hi⟩ := List.mem_iff_getElem?.1 hspec'
          have hlt : i < grants.length := by
            rw [hlength]
            exact (List.getElem?_eq_some_iff.1 hi).1
          have hzip : (spec, grants[i]) ∈ ticket.reasons.zip grants := by
            apply List.mem_of_getElem? (i := i)
            rw [List.getElem?_zip_eq_some]
            exact ⟨hi, List.getElem?_eq_getElem hlt⟩
          obtain ⟨d, hd⟩ := hrests spec grants[i] hzip
          refine ⟨d, .granted (List.mem_append_right _ (List.mem_singleton_self _)) rfl ?_
            (hd.mono _)⟩
          rw [hold]
          exact hzip
        · intro grants' hgrants'
          cases hgrants'
          refine ⟨_, rfl, ?_, ?_, ?_⟩
          · rw [hold]
            exact hlength
          · rw [hold]
            exact hoffers
          · intro spec grant' hzip
            rw [hold] at hzip
            refine ⟨hrests spec grant' hzip, fun hhuman d hd => ?_⟩
            apply hd.human
            apply hsound spec _ hhuman
            rw [ApprovalDesk.asks.merged, ← hreasons]
            exact (List.of_mem_zip hzip).1

theorem Inv.quiet_step (h : history.Inv) {move : ApprovalDesk.Move}
    (hanswer : history.desk.answer move = none)
    (hprompts : (history.desk.step move).prompts.Inv)
    (hdecided : ∀ t, (history.desk.step move).prompts.Decided t →
      history.desk.prompts.Decided t) : (history.step move).Inv := by
  rw [GrantHistory.step, hanswer, Option.toList_none, List.append_nil]
  exact h.quiet hprompts hdecided

theorem Inv.step (h : history.Inv) {move : ApprovalDesk.Move} (hsound : history.Sound move) :
    (history.step move).Inv := by
  cases move with
  | file invocationId reasons createdAtMs opening deciding =>
    exact h.filed invocationId reasons createdAtMs opening deciding hsound
      (ApprovalDesk.file_prompts ..)
  | fileSpecs callId specs now opening deciding =>
    exact h.filed (some callId) specs now opening deciding hsound (ApprovalDesk.fileSpecs_prompts ..)
  | decide id decision append =>
    exact h.asked rfl id decision none append (ApprovalDesk.decide_prompts ..)
  | decideKeyed id decision key append =>
    have hprompts := ApprovalDesk.decideKeyed_prompts id decision key append history.desk
    have hstep : (history.desk.step (.decideKeyed id decision key append)).prompts =
      (ApprovalDesk.decideKeyed id decision key append history.desk).2.prompts := rfl
    rw [hprompts] at hstep
    cases hreplayed : history.desk.prompts.replayKeyed key id decision with
    | error e =>
      rw [hreplayed] at hstep
      apply h.quiet_step
      · rw [ApprovalDesk.answer, hreplayed]
      · rw [hstep]
        exact h.prompts
      · rw [hstep]
        exact fun _ ht => ht
    | ok replayed =>
      cases replayed with
      | none =>
        rw [hreplayed] at hstep
        rw [GrantHistory.step, ApprovalDesk.answer, hreplayed]
        exact h.asked rfl id decision (some key) append hstep
      | some entry =>
        rw [hreplayed] at hstep
        apply h.quiet_step
        · rw [ApprovalDesk.answer, hreplayed]
        · rw [hstep]
          exact h.prompts
        · rw [hstep]
          exact fun _ ht => ht
  | sweep appends =>
    have hswept := @ApprovalDesk.withdrawAll_decided appends history.desk.abandoned
      { history.desk with
        pending := history.desk.abandoned.foldl (fun m id => m.erase id) history.desk.pending }
      h.prompts
    exact h.quiet_step rfl hswept.1 hswept.2
  | leave number => exact h.quiet_step rfl h.prompts fun _ ht => ht
  | work handles entries key entry =>
    exact h.quiet_step rfl (h.prompts.work handles entries key entry) fun _ ht => ht

theorem Inv.run {moves : List ApprovalDesk.Move} : ∀ {history : GrantHistory}, history.Inv →
    history.SoundRun moves → (history.run moves).Inv := by
  induction moves with
  | nil => exact fun h _ => h
  | cons move moves ih => exact fun h hsound => ih (h.step hsound.1) hsound.2

theorem start_inv (highWater entryCount : Nat) (keys : String → Option KeyUse) :
    (start highWater entryCount keys).Inv := by
  refine ⟨(ApprovalDesk.start_inv highWater entryCount keys).prompts, ?_, ?_, ?_⟩
  · intro t ht
    obtain ⟨-, entry, hentry, -⟩ := ht
    cases hentry
  · intro answer hanswer
    cases hanswer
  · intro i answer grants hi
    cases hi

/-- **Grants never widen authority**, in every history in which a requirement that demands a human
is filed only where every decision that was asked for and approves its kind and subject is a human
one. -/
theorem start_run_narrow (highWater entryCount : Nat) (keys : String → Option KeyUse)
    (moves : List ApprovalDesk.Move) (h : (start highWater entryCount keys).SoundRun moves) :
    Narrow ((start highWater entryCount keys).run moves).answers :=
  ((start_inv highWater entryCount keys).run h).narrow

/-- A command is approved for the session, and then asked for again by a requirement that demands a
human. -/
def repeated (source : ApprovalSource) : List ApprovalDesk.Move :=
  [.fileSpecs "first" [ApprovalDesk.sessionSpec "ls"] 0 (.ok Dom.sampleCause) (.ok Dom.sampleCause),
    .decide "approval-5" { approved := true, scope := .session, source } (.ok Dom.sampleCause),
    .fileSpecs "second" [{ ApprovalDesk.sessionSpec "ls" with requireHuman := true }] 0
      (.ok Dom.sampleCause) (.ok Dom.sampleCause)]

/-- The first of the two prompts, as it is answered. -/
def firstAnswer (source : ApprovalSource) : Answer where
  ticket :=
    { ticketId := "approval-5"
      invocationId := some "first"
      reasons := [ApprovalDesk.sessionSpec "ls"]
      state := .decided
      decision := some { approved := true, scope := .session, source } }
  grants := none

theorem start_run_narrow_user :
    Narrow ((start 4 1 fun _ => none).run (repeated .user)).answers := by
  apply start_run_narrow
  refine ⟨?_, ?_, ?_, trivial⟩
  · intro spec hspec hhuman
    rw [List.mem_singleton.1 hspec] at hhuman
    cases hhuman
  · intro spec hspec
    cases hspec
  · have hanswers : (((start 4 1 fun _ => none).step
        (.fileSpecs "first" [ApprovalDesk.sessionSpec "ls"] 0 (.ok Dom.sampleCause)
          (.ok Dom.sampleCause))).step
        (.decide "approval-5" { approved := true, scope := .session, source := .user }
          (.ok Dom.sampleCause))).answers = [firstAnswer .user] := by decide +kernel
    intro spec _ _
    rw [hanswers]
    intro answer hanswer _ decision hdecision
    rw [List.mem_singleton.1 hanswer] at hdecision
    cases hdecision
    intros
    exact .inl rfl

/-- The approval of an extension answers a requirement that demands a human. -/
theorem extension_grant_not_narrow :
    ¬ Narrow ((start 4 1 fun _ => none).run (repeated .extension)).answers := by
  intro h
  have hanswers : ((start 4 1 fun _ => none).run (repeated .extension)).answers.take 1 =
      [firstAnswer .extension] := by decide +kernel
  have hsecond : (((start 4 1 fun _ => none).run (repeated .extension)).answers[1]?).map
      (fun answer => (answer.ticket.reasons, answer.grants)) =
        some ([{ ApprovalDesk.sessionSpec "ls" with requireHuman := true }],
          some [{ ticketId := "approval-5", scope := .session, decidedBy := none }]) := by
    decide +kernel
  obtain ⟨answer, hanswer, heq⟩ := Option.map_eq_some_iff.1 hsecond
  obtain ⟨hreasons, hgrants⟩ := Prod.mk.inj heq
  obtain ⟨decision, -, -, -, hall⟩ := h 1 answer _ hanswer hgrants
  rw [hreasons] at hall
  have hhuman := (hall _ _ List.mem_cons_self).2 rfl
    { approved := true, scope := .session, source := .extension } (by
      rw [hanswers]
      exact @Origin.asked _ (firstAnswer .extension) _ (ApprovalDesk.sessionSpec "ls")
        List.mem_cons_self rfl rfl ⟨rfl, .inl rfl⟩ List.mem_cons_self (by decide +kernel))
  rcases hhuman with hsource | hsource
  · cases hsource
  · cases hsource

end GrantHistory

end OhMyPi
