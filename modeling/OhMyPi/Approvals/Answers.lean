import OhMyPi.Approvals.Desk
import OhMyPi.Dom.RedactedReplica

/-! What the policies that wait at the desk are told: the first decision journaled on their ticket,
as long as no grant answers a prompt on which others already wait. -/

namespace OhMyPi

/-! ## Ticket ids -/

theorem ApprovalBook.ticketId_inj {m n : Nat}
    (h : ApprovalBook.ticketId m = ApprovalBook.ticketId n) : m = n := by
  have hlist := congrArg String.toList h
  simp only [ticketId, String.toList_append] at hlist
  apply Text.toDigits_inj
  rw [← Nat.toList_repr, ← Nat.toList_repr]
  exact List.append_cancel_left hlist

/-! ## The book -/

/-- The decision a patch journals on a ticket. -/
def ApprovalPatch.decides (id : String) : ApprovalPatch → Option ApprovalDecision
  | .decide id' decision => if id' = id then some decision else none
  | _ => none

namespace Prompts

variable {p q : Prompts}

/-- The first decision journaled on a ticket. -/
def firstDecision (p : Prompts) (id : String) : Option ApprovalDecision :=
  p.journal.findSome? (·.decides id)

/-- What holds of the prompts of every session: a ticket is named by the handle of its node, and its
decision is the first one journaled. -/
structure Inv (p : Prompts) : Prop where
  numbered : ∀ entry ∈ p.tickets,
    entry.2.ticketId = ApprovalBook.ticketId entry.1 ∧ entry.1 ≤ p.highWater
  distinct : (p.tickets.map Prod.fst).Nodup
  first : ∀ entry ∈ p.tickets,
    entry.2.decision = (p.firstDecision entry.2.ticketId).map ApprovalDecision.settled
  decided : ∀ entry ∈ p.tickets, entry.2.state = .decided ↔ entry.2.decision.isSome
  known : ∀ id, p.firstDecision id ≠ none → ∃ entry ∈ p.tickets, entry.2.ticketId = id

theorem firstDecision_record (p : Prompts) (label : ApprovalPatch) (id : String) :
    (p.record label).firstDecision id = (p.firstDecision id).or (label.decides id) := by
  rw [firstDecision, record, List.findSome?_append, List.findSome?_singleton]
  rfl

theorem Inv.eq_of_ticketId (h : p.Inv) {entry entry' : Nat × ApprovalTicket}
    (hmem : entry ∈ p.tickets) (hmem' : entry' ∈ p.tickets)
    (hid : entry.2.ticketId = entry'.2.ticketId) : entry = entry' := by
  have hhandle : entry.1 = entry'.1 := by
    apply ApprovalBook.ticketId_inj
    rw [← (h.numbered entry hmem).1, ← (h.numbered entry' hmem').1, hid]
  exact List.inj_on_of_nodup_map h.distinct hmem hmem' hhandle

theorem Inv.decision_eq_none (h : p.Inv) {entry : Nat × ApprovalTicket} (hmem : entry ∈ p.tickets)
    (hpending : entry.2.state = .pending) : entry.2.decision = none := by
  have hdecided := h.decided entry hmem
  rw [hpending] at hdecided
  simpa using hdecided

theorem findTicket_eq_ok {id : String} {entry : Nat × ApprovalTicket}
    (h : p.findTicket id = .ok entry) : entry ∈ p.tickets ∧ entry.2.ticketId = id := by
  rw [findTicket] at h
  cases hfind : p.tickets.find? fun entry => entry.2.ticketId = id with
  | none =>
    rw [hfind] at h
    cases h
  | some found =>
    rw [hfind] at h
    cases h
    exact ⟨List.mem_of_find?_eq_some hfind, by simpa using List.find?_some hfind⟩

theorem mem_setTicket {handle : Nat} {ticket : ApprovalTicket} {entry : Nat × ApprovalTicket}
    (h : entry ∈ (p.setTicket handle ticket).tickets) :
    (entry ∈ p.tickets ∧ entry.1 ≠ handle) ∨ entry = (handle, ticket.settled) := by
  obtain ⟨old, hold, rfl⟩ := List.mem_map.1 h
  split
  next => exact .inr rfl
  next hne => exact .inl ⟨hold, hne⟩

theorem mem_setTicket_self {handle : Nat} {ticket : ApprovalTicket} {entry : Nat × ApprovalTicket}
    (h : entry ∈ p.tickets) (hhandle : entry.1 = handle) :
    (handle, ticket.settled) ∈ (p.setTicket handle ticket).tickets :=
  List.mem_map.2 ⟨entry, h, by rw [if_pos hhandle]⟩

theorem mem_setTicket_of_ne {handle : Nat} {ticket : ApprovalTicket} {entry : Nat × ApprovalTicket}
    (h : entry ∈ p.tickets) (hhandle : entry.1 ≠ handle) :
    entry ∈ (p.setTicket handle ticket).tickets :=
  List.mem_map.2 ⟨entry, h, by rw [if_neg hhandle]⟩

/-- Rewriting one ticket of the same id, with the journal entry that says so. -/
theorem Inv.setTicket_record (h : p.Inv) {handle : Nat} {old ticket : ApprovalTicket}
    {label : ApprovalPatch} (hold : (handle, old) ∈ p.tickets)
    (hid : ticket.ticketId = old.ticketId)
    (hlabel : ∀ id, id ≠ old.ticketId → label.decides id = none)
    (hfirst : ticket.settled.decision = (((p.setTicket handle ticket).record label).firstDecision
      old.ticketId).map ApprovalDecision.settled)
    (hstate : ticket.state = .decided ↔ ticket.decision.isSome) :
    ((p.setTicket handle ticket).record label).Inv := by
  have hsame : ∀ id, id ≠ old.ticketId →
      ((p.setTicket handle ticket).record label).firstDecision id = p.firstDecision id := by
    intro id hne
    rw [firstDecision_record, hlabel id hne, Option.or_none]
    rfl
  refine ⟨?_, ?_, ?_, ?_, ?_⟩
  · intro entry hentry
    rcases mem_setTicket hentry with ⟨hmem, -⟩ | rfl
    · exact h.numbered entry hmem
    · have hnumber := h.numbered _ hold
      exact ⟨hid.trans hnumber.1, hnumber.2⟩
  · have hfst : ((p.setTicket handle ticket).record label).tickets.map Prod.fst =
        p.tickets.map Prod.fst := by
      rw [record, setTicket, List.map_map]
      apply List.map_congr_left
      intro entry _
      rw [Function.comp_apply]
      split
      next heq => exact heq.symm
      next => rfl
    rw [hfst]
    exact h.distinct
  · intro entry hentry
    rcases mem_setTicket hentry with ⟨hmem, hne⟩ | rfl
    · rw [hsame, h.first entry hmem]
      intro heq
      exact hne (congrArg Prod.fst (h.eq_of_ticketId hmem hold heq))
    · rw [← hid] at hfirst
      exact hfirst
  · intro entry hentry
    rcases mem_setTicket hentry with ⟨hmem, -⟩ | rfl
    · exact h.decided entry hmem
    · rw [ApprovalTicket.settled, Option.isSome_map]
      exact hstate
  · intro id hid'
    by_cases heq : id = old.ticketId
    · exact ⟨_, mem_setTicket_self hold rfl, hid.trans heq.symm⟩
    · rw [hsame id heq] at hid'
      obtain ⟨entry, hentry, rfl⟩ := h.known id hid'
      by_cases hhandle : entry.1 = handle
      · exact ⟨_, mem_setTicket_self hold rfl,
          hid.trans (congrArg (fun e => e.2.ticketId) (List.inj_on_of_nodup_map h.distinct hold
            hentry hhandle.symm))⟩
      · exact ⟨entry, mem_setTicket_of_ne hentry hhandle, rfl⟩

theorem Inv.insert_record (h : p.Inv) {ticket : ApprovalTicket}
    (hid : ticket.ticketId = ApprovalBook.ticketId (p.highWater + 1))
    (hstate : ticket.state = .pending) (hdecision : ticket.decision = none) :
    ((p.insert ticket).record (.open ticket)).Inv := by
  have hfirst : ∀ id, ((p.insert ticket).record (.open ticket)).firstDecision id =
      p.firstDecision id := by
    intro id
    rw [firstDecision_record]
    exact Option.or_none
  have hfresh : p.firstDecision ticket.ticketId = none := by
    by_contra hsome
    obtain ⟨entry, hentry, heq⟩ := h.known _ hsome
    obtain ⟨hnumber, hle⟩ := h.numbered entry hentry
    have := ApprovalBook.ticketId_inj (hnumber.symm.trans (heq.trans hid))
    omega
  refine ⟨?_, ?_, ?_, ?_, ?_⟩
  · intro entry hentry
    rcases List.mem_append.1 hentry with hmem | hmem
    · exact ⟨(h.numbered entry hmem).1, Nat.le_succ_of_le (h.numbered entry hmem).2⟩
    · cases List.mem_singleton.1 hmem
      exact ⟨hid, le_rfl⟩
  · have hfst : ((p.insert ticket).record (.open ticket)).tickets.map Prod.fst =
        p.tickets.map Prod.fst ++ [p.highWater + 1] := by
      rw [record, insert, List.map_append]
      rfl
    rw [hfst, List.nodup_append_comm, List.singleton_append, List.nodup_cons]
    refine ⟨?_, h.distinct⟩
    intro hmem
    obtain ⟨entry, hentry, heq⟩ := List.mem_map.1 hmem
    have := (h.numbered entry hentry).2
    omega
  · intro entry hentry
    rcases List.mem_append.1 hentry with hmem | hmem
    · rw [hfirst]
      exact h.first entry hmem
    · cases List.mem_singleton.1 hmem
      rw [hfirst, ApprovalTicket.settled, hdecision, hfresh]
  · intro entry hentry
    rcases List.mem_append.1 hentry with hmem | hmem
    · exact h.decided entry hmem
    · cases List.mem_singleton.1 hmem
      simp [ApprovalTicket.settled, hstate, hdecision]
  · intro id hid'
    rw [hfirst] at hid'
    obtain ⟨entry, hentry, heq⟩ := h.known id hid'
    exact ⟨entry, List.mem_append_left _ hentry, heq⟩

/-- How the prompts change under the book: tickets stay, those not in `closed` stay open, and a
journaled decision stays the first. -/
structure Follows (p q : Prompts) (closed : String → Prop) : Prop where
  tickets : ∀ entry ∈ p.tickets, ∃ entry' ∈ q.tickets, entry'.2.ticketId = entry.2.ticketId ∧
    (entry.2.state = .pending → ¬ closed entry.2.ticketId → entry'.2.state = .pending)
  decisions : ∀ id decision, p.firstDecision id = some decision →
    q.firstDecision id = some decision

theorem firstDecision_record_of_some {label : ApprovalPatch} {id : String}
    {decision : ApprovalDecision} (h : p.firstDecision id = some decision) :
    (p.record label).firstDecision id = some decision := by
  rw [firstDecision_record, h]
  rfl

theorem follows_setTicket_record {closed : String → Prop} {handle : Nat}
    {old ticket : ApprovalTicket} {label : ApprovalPatch} (hold : (handle, old) ∈ p.tickets)
    (hdistinct : (p.tickets.map Prod.fst).Nodup) (hid : ticket.ticketId = old.ticketId)
    (hstate : ¬ closed old.ticketId → ticket.state = .pending) :
    p.Follows ((p.setTicket handle ticket).record label) closed := by
  constructor
  · intro entry hentry
    by_cases hhandle : entry.1 = handle
    · cases List.inj_on_of_nodup_map hdistinct hentry hold hhandle
      exact ⟨_, mem_setTicket_self hold rfl, hid, fun _ hclosed => hstate hclosed⟩
    · exact ⟨entry, mem_setTicket_of_ne hentry hhandle, rfl, fun hpending _ => hpending⟩
  · intro id decision h
    exact firstDecision_record_of_some h

theorem follows_insert_record (p : Prompts) (ticket : ApprovalTicket) (label : ApprovalPatch)
    (closed : String → Prop) : p.Follows ((p.insert ticket).record label) closed := by
  constructor
  · intro entry hentry
    exact ⟨entry, List.mem_append_left _ hentry, rfl, fun hpending _ => hpending⟩
  · intro id decision h
    exact firstDecision_record_of_some h

/-- The session journals something else. -/
def work (handles entries : Nat) (key : String) (entry : EntryId) (p : Prompts) : Prompts :=
  { p.useKey key { entry, identity := none } with
    highWater := p.highWater + handles
    entryCount := p.entryCount + entries }

theorem Inv.work (h : p.Inv) (handles entries : Nat) (key : String) (entry : EntryId) :
    (p.work handles entries key entry).Inv := by
  refine ⟨?_, h.distinct, h.first, h.decided, h.known⟩
  intro ticket hticket
  exact ⟨(h.numbered ticket hticket).1, Nat.le_add_right_of_le (h.numbered ticket hticket).2⟩

end Prompts

namespace ApprovalBook

variable {p : Prompts} {append : Append}

theorem existing_eq_some {invocationId : Option String} {entry : Nat × ApprovalTicket}
    (h : existing p invocationId = some entry) : entry ∈ p.tickets ∧ entry.2.state = .pending := by
  cases invocationId with
  | none => cases h
  | some id =>
    have hfound := List.find?_some h
    rw [Bool.and_eq_true, decide_eq_true_eq, decide_eq_true_eq] at hfound
    exact ⟨List.mem_of_find?_eq_some h, hfound.2⟩

/-- What filing does: nothing, or it leaves an open ticket, which is either the one it merged into
or one that did not exist. -/
theorem openFor_cases (h : p.Inv) (invocationId : Option String) (reasons : List ApprovalSpec)
    (createdAtMs : UInt64) (append : Append) :
    (∃ e, openFor invocationId reasons createdAtMs append p = (.error e, p)) ∨
    ∃ ticket q, openFor invocationId reasons createdAtMs append p = (.ok ticket, q) ∧ q.Inv ∧
      p.Follows q (fun _ => False) ∧
      (∃ entry ∈ q.tickets, entry.2.ticketId = ticket.ticketId ∧ entry.2.state = .pending) ∧
      ((∃ handle old, existing p invocationId = some (handle, old) ∧
          ticket = { old with reasons := old.reasons ++ reasons } ∧
          q = (p.setTicket handle ticket).record (.merge ticket)) ∨
        (existing p invocationId = none ∧
          (∀ entry ∈ p.tickets, entry.2.ticketId ≠ ticket.ticketId) ∧
          q = (p.insert ticket).record (.open ticket))) := by
  rw [openFor]
  cases hexisting : existing p invocationId with
  | some entry =>
    obtain ⟨handle, old⟩ := entry
    obtain ⟨hmem, hpending⟩ := existing_eq_some hexisting
    cases append with
    | error e => exact .inl ⟨_, rfl⟩
    | ok id =>
      refine .inr ⟨{ old with reasons := old.reasons ++ reasons }, _, rfl, ?_, ?_, ?_,
        .inl ⟨handle, old, rfl, rfl, rfl⟩⟩
      · refine h.setTicket_record hmem rfl (fun _ _ => rfl) ?_ (h.decided _ hmem)
        rw [Prompts.firstDecision_record, show ∀ t, ApprovalPatch.decides old.ticketId (.merge t) = none
          from fun _ => rfl, Option.or_none]
        have hfirst := h.first _ hmem
        have hnone := h.decision_eq_none hmem hpending
        rw [hnone] at hfirst
        rw [ApprovalTicket.settled, hnone]
        exact hfirst
      · exact Prompts.follows_setTicket_record hmem h.distinct rfl fun _ => hpending
      · exact ⟨_, Prompts.mem_setTicket_self hmem rfl, rfl, hpending⟩
  | none =>
    cases append with
    | error e => exact .inl ⟨_, rfl⟩
    | ok id =>
      refine .inr ⟨_, _, rfl, h.insert_record rfl rfl rfl, Prompts.follows_insert_record .., ?_,
        .inr ⟨rfl, ?_, rfl⟩⟩
      · exact ⟨_, List.mem_append_right _ (List.mem_singleton_self _), rfl, rfl⟩
      · intro entry hentry heq
        obtain ⟨hnumber, hle⟩ := h.numbered entry hentry
        have := ticketId_inj (hnumber.symm.trans heq)
        omega

/-- The prompts after a decision. -/
theorem decided_inv (h : p.Inv) {handle : Nat} {old : ApprovalTicket} {id : String}
    {decision : ApprovalDecision} (hmem : (handle, old) ∈ p.tickets) (hid : old.ticketId = id)
    (hpending : old.state = .pending) :
    let q := (p.setTicket handle { old with state := .decided, decision := some decision }).record
      (.decide id decision)
    q.Inv ∧ p.Follows q (· = id) ∧ q.firstDecision id = some decision := by
  intro q
  have hnone : p.firstDecision id = none := by
    have hfirst := h.first _ hmem
    rw [h.decision_eq_none hmem hpending, hid] at hfirst
    exact Option.map_eq_none_iff.1 hfirst.symm
  have hfirst : q.firstDecision id = some decision := by
    rw [Prompts.firstDecision_record, ApprovalPatch.decides, if_pos rfl]
    change (p.firstDecision id).or _ = _
    rw [hnone]
    rfl
  refine ⟨?_, ?_, hfirst⟩
  · refine h.setTicket_record hmem rfl ?_ ?_ ⟨fun _ => rfl, fun _ => rfl⟩
    · intro other hne
      rw [ApprovalPatch.decides, if_neg]
      rw [← hid]
      exact hne.symm
    · exact (congrArg (Option.map ApprovalDecision.settled) (hid ▸ hfirst)).symm
  · refine Prompts.follows_setTicket_record hmem h.distinct rfl ?_
    intro hopen
    exact absurd hid hopen

theorem useKey_inv (h : p.Inv) (key : String) (use : KeyUse) : (p.useKey key use).Inv :=
  ⟨h.numbered, h.distinct, h.first, h.decided, h.known⟩

/-- What journaling a decision does: nothing, or it makes the change it was given. -/
theorem journalDecision_cases (p : Prompts) (id : String) (decision : ApprovalDecision)
    (key : Option String) (append : Append) (change : Prompts → Prompts) :
    (∃ e, journalDecision id decision key append change p = (.error e, p)) ∨
    (∃ entry, key ≠ none ∧
      journalDecision id decision key append change p = (.ok (.replayed entry), p)) ∨
    ∃ entry q, journalDecision id decision key append change p = (.ok (.appended entry), q) ∧
      (q = (change p).record (.decide id decision) ∨
        ∃ key use, q = ((change p).record (.decide id decision)).useKey key use) := by
  cases key with
  | none =>
    cases append with
    | error e => exact .inl ⟨_, rfl⟩
    | ok entry => exact .inr (.inr ⟨entry, _, rfl, .inl rfl⟩)
  | some key =>
    rw [journalDecision, Action.bind_apply, Action.reads]
    cases p.replayKeyed key id decision with
    | error e => exact .inl ⟨_, rfl⟩
    | ok replayed =>
      cases replayed with
      | some entry => exact .inr (.inl ⟨entry, Option.some_ne_none key, rfl⟩)
      | none =>
        cases append with
        | error e => exact .inl ⟨_, rfl⟩
        | ok entry => exact .inr (.inr ⟨entry, _, rfl, .inr ⟨key, _, rfl⟩⟩)

/-- What a decision does: nothing, when it is refused, replayed or comes too late, or it is the first
decision on its ticket. -/
theorem decideInner_cases (h : p.Inv) (id : String) (decision : ApprovalDecision)
    (key : Option String) (append : Append) :
    (∃ e, decideInner id decision key append p = (.error e, p)) ∨
    (∃ ticket handle, decideInner id decision key append p = (.ok (ticket, none), p) ∧
      (handle, ticket) ∈ p.tickets ∧ ticket.ticketId = id ∧ ticket.state ≠ .pending) ∨
    (∃ ticket entry, key ≠ none ∧
      decideInner id decision key append p = (.ok (ticket, some (.replayed entry)), p)) ∨
    ∃ ticket entry q, decideInner id decision key append p =
        (.ok (ticket, some (.appended entry)), q) ∧ ticket.ticketId = id ∧
      q.Inv ∧ p.Follows q (· = id) ∧ q.firstDecision id = some decision ∧
      ∃ handle old, (handle, old) ∈ p.tickets ∧ old.state = .pending ∧
        ticket = { old with state := .decided, decision := some decision } ∧
        q.tickets = (p.setTicket handle ticket).tickets := by
  rw [decideInner]
  split
  next => exact .inl ⟨_, rfl⟩
  next =>
    rw [Action.bind_apply, Action.reads]
    cases hfind : p.findTicket id with
    | error e => exact .inl ⟨_, rfl⟩
    | ok found =>
      obtain ⟨handle, old⟩ := found
      obtain ⟨hmem, hid⟩ := Prompts.findTicket_eq_ok hfind
      by_cases hpending : old.state = .pending
      · have hdecided := @decided_inv p h handle old id decision hmem hid hpending
        simp only [hpending, if_true]
        rw [Action.bind_apply]
        rcases journalDecision_cases p id decision key append
            (·.setTicket handle { old with state := .decided, decision := some decision }) with
          ⟨e, hjournal⟩ | ⟨entry, hkey, hjournal⟩ | ⟨entry, q, hjournal, hq⟩
        · rw [hjournal]
          exact .inl ⟨e, rfl⟩
        · rw [hjournal]
          exact .inr (.inr (.inl ⟨_, entry, hkey, rfl⟩))
        · rw [hjournal]
          refine .inr (.inr (.inr ⟨_, entry, q, rfl, hid, ?_⟩))
          rcases hq with rfl | ⟨key, use, rfl⟩
          · exact ⟨hdecided.1, hdecided.2.1, hdecided.2.2, handle, old, hmem, hpending, rfl, rfl⟩
          · exact ⟨useKey_inv hdecided.1 key use, ⟨hdecided.2.1.tickets, hdecided.2.1.decisions⟩,
              hdecided.2.2, handle, old, hmem, hpending, rfl, rfl⟩
      · simp only [hpending, if_false]
        exact .inr (.inl ⟨old, handle, rfl, hmem, hid, hpending⟩)

theorem decide_of_ok {id : String} {decision : ApprovalDecision} {ticket : ApprovalTicket}
    {outcome : Option AppendOutcome} {q : Prompts}
    (h : decideInner id decision none append p = (.ok (ticket, outcome), q)) :
    decide id decision append p = (.ok ticket, q) := Action.bind_of_ok h

theorem decide_of_error {id : String} {decision : ApprovalDecision} {e : ApprovalError}
    {q : Prompts} (h : decideInner id decision none append p = (.error e, q)) :
    decide id decision append p = (.error e, q) := Action.bind_of_error h

/-- What a withdrawal does: nothing, or it closes its ticket. -/
theorem withdraw_cases (h : p.Inv) (id : String) (append : Append) :
    ∃ result q, withdraw id append p = (result, q) ∧ q.Inv ∧ p.Follows q (· = id) ∧
      (q.tickets = p.tickets ∨ ∃ handle old, (handle, old) ∈ p.tickets ∧ old.decision = none ∧
        q.tickets = (p.setTicket handle { old with state := .withdrawn }).tickets) := by
  have hstay : p.Follows p (· = id) :=
    ⟨fun entry hentry => ⟨entry, hentry, rfl, fun hpending _ => hpending⟩, fun _ _ h => h⟩
  rw [withdraw, Action.bind_apply, Action.reads]
  cases hfind : p.findTicket id with
  | error e => exact ⟨_, p, rfl, h, hstay, .inl rfl⟩
  | ok found =>
    obtain ⟨handle, old⟩ := found
    obtain ⟨hmem, hid⟩ := Prompts.findTicket_eq_ok hfind
    by_cases hpending : old.state = .pending
    · have hnone : old.decision = none := h.decision_eq_none hmem hpending
      simp only [hpending, if_true]
      cases append with
      | error e => exact ⟨_, p, rfl, h, hstay, .inl rfl⟩
      | ok entry =>
        refine ⟨_, _, rfl, ?_, ?_, .inr ⟨handle, old, hmem, hnone, rfl⟩⟩
        · refine h.setTicket_record hmem rfl (fun _ _ => rfl) ?_ ?_
          · rw [Prompts.firstDecision_record, show ApprovalPatch.decides old.ticketId (.withdraw id) =
              none from rfl, Option.or_none]
            change old.decision.map _ = (p.firstDecision old.ticketId).map _
            rw [← h.first _ hmem, hnone]
            rfl
          · rw [hnone]
            exact ⟨fun hstate => (by cases hstate), fun hsome => (by cases hsome)⟩
        · refine Prompts.follows_setTicket_record hmem h.distinct rfl ?_
          intro hopen
          exact absurd hid hopen
    · simp only [hpending, if_false]
      exact ⟨_, p, rfl, h, hstay, .inl rfl⟩

end ApprovalBook

/-! ## Grants -/

theorem ApprovalTicket.granting_self {decided ticket : ApprovalTicket}
    (h : decided.ticketId = ticket.ticketId) : decided.granting ticket = none := by
  rw [granting, Option.filter_eq_none_iff]
  intro decision _
  simp [h]

/-- A ticket grants nothing to itself, so rewriting it does not change what it is granted. -/
theorem cover_setTicket (ticket : ApprovalTicket) {handle : Nat}
    (tickets : List (Nat × ApprovalTicket))
    (h : ∀ entry ∈ tickets, entry.1 = handle → entry.2.ticketId = ticket.ticketId)
    (slots : List (ApprovalSpec × Option Grant)) :
    cover ticket ((tickets.map fun entry =>
      if entry.1 = handle then (handle, ticket.settled) else entry).map Prod.snd) slots =
        cover ticket (tickets.map Prod.snd) slots := by
  induction tickets generalizing slots with
  | nil => rfl
  | cons entry tickets ih =>
    have htail := ih fun other hother => h other (List.mem_cons_of_mem _ hother)
    simp only [List.map_cons]
    split
    next hhandle =>
      rw [cover, cover, ApprovalTicket.granting_self (h entry List.mem_cons_self hhandle),
        ApprovalTicket.granting_self (show ticket.settled.ticketId = ticket.ticketId from rfl)]
      exact htail slots
    next =>
      rw [cover, cover]
      cases entry.2.granting ticket with
      | none => exact htail slots
      | some decision => simp only [htail]

theorem sessionGrant_setTicket_record {p : Prompts} {ticket : ApprovalTicket} {handle : Nat}
    {label : ApprovalPatch}
    (h : ∀ entry ∈ p.tickets, entry.1 = handle → entry.2.ticketId = ticket.ticketId) :
    sessionGrant ((p.setTicket handle ticket).record label) ticket = sessionGrant p ticket := by
  have hcovering : coveringGrants ((p.setTicket handle ticket).record label) ticket =
      coveringGrants p ticket := by
    rw [coveringGrants, coveringGrants, ← cover_setTicket ticket p.tickets h]
    rfl
  rw [sessionGrant, sessionGrant, hcovering]

/-! ## The desk -/

theorem Reply.respond_cases (reply : Reply) (decision : ApprovalDecision) :
    (reply.Waiting ∧ reply.respond decision = { reply with answer := some decision }) ∨
      (¬ reply.Waiting ∧ reply.respond decision = reply) := by
  rw [Reply.respond, Reply.Waiting]
  by_cases hwaiting : reply.receiving = true ∧ reply.answer = none
  · exact .inl ⟨hwaiting, by rw [if_pos (by simp [hwaiting])]⟩
  · refine .inr ⟨hwaiting, ?_⟩
    rw [if_neg]
    intro h
    rw [Bool.and_eq_true, Option.isNone_iff_eq_none] at h
    exact hwaiting h

namespace ApprovalDesk

variable {desk : ApprovalDesk}

/-- What the policies are told agrees with the journal: an answer is the first decision on its
ticket, and nobody waits on a ticket that was decided. -/
def Truthful (desk : ApprovalDesk) : Prop :=
  ∀ reply ∈ desk.replies,
    (∀ decision, reply.answer = some decision →
      desk.prompts.firstDecision reply.ticketId = some decision) ∧
    (desk.prompts.firstDecision reply.ticketId ≠ none → ¬ reply.Waiting)

/-- The invariant of a run: whoever waits is kept, on a ticket that is open. -/
structure Inv (desk : ApprovalDesk) : Prop where
  prompts : desk.prompts.Inv
  filed : ∀ reply ∈ desk.replies, ∃ entry ∈ desk.prompts.tickets, entry.2.ticketId = reply.ticketId
  kept : ∀ id, ∀ number ∈ (desk.pending.get? id).getD [],
    ∃ reply, desk.replies[number]? = some reply ∧ reply.ticketId = id
  waiting : ∀ number reply, desk.replies[number]? = some reply → reply.Waiting →
    number ∈ (desk.pending.get? reply.ticketId).getD [] ∧
      ∃ entry ∈ desk.prompts.tickets, entry.2.ticketId = reply.ticketId ∧ entry.2.state = .pending
  answered : ∀ reply ∈ desk.replies, ∀ decision, reply.answer = some decision →
    desk.prompts.firstDecision reply.ticketId = some decision

theorem Inv.truthful (h : desk.Inv) : desk.Truthful := by
  intro reply hreply
  refine ⟨h.answered reply hreply, fun hfirst hwaiting => ?_⟩
  obtain ⟨number, hnumber⟩ := List.mem_iff_getElem?.1 hreply
  obtain ⟨-, entry, hentry, hid, hpending⟩ := h.waiting number reply hnumber hwaiting
  have hdecided := h.prompts.decided entry hentry
  rw [h.prompts.first entry hentry, hid, Option.isSome_map, Option.isSome_iff_ne_none] at hdecided
  have := hdecided.2 hfirst
  rw [hpending] at this
  cases this

/-- Whether nobody waits on a ticket. -/
def Idle (desk : ApprovalDesk) (id : String) : Prop :=
  ∀ reply ∈ desk.replies, reply.ticketId = id → ¬ reply.Waiting

/-- The book may do as it likes with tickets on which nobody waits. -/
theorem Inv.follow (h : desk.Inv) {q : Prompts} {closed : String → Prop} (hq : q.Inv)
    (hfollows : desk.prompts.Follows q closed) (hidle : ∀ id, closed id → desk.Idle id) :
    { desk with prompts := q }.Inv := by
  refine ⟨hq, ?_, h.kept, ?_, ?_⟩
  · intro reply hreply
    obtain ⟨entry, hentry, hid⟩ := h.filed reply hreply
    obtain ⟨entry', hentry', hid', -⟩ := hfollows.tickets entry hentry
    exact ⟨entry', hentry', hid'.trans hid⟩
  · intro number reply hnumber hwaiting
    obtain ⟨hkept, entry, hentry, hid, hpending⟩ := h.waiting number reply hnumber hwaiting
    obtain ⟨entry', hentry', hid', hstill⟩ := hfollows.tickets entry hentry
    refine ⟨hkept, entry', hentry', hid'.trans hid, hstill hpending ?_⟩
    intro hclosed
    rw [hid] at hclosed
    exact hidle _ hclosed reply (List.mem_of_getElem? hnumber) rfl hwaiting
  · intro reply hreply decision hdecision
    exact hfollows.decisions _ _ (h.answered reply hreply decision hdecision)

theorem Inv.idle_of_not_pending (h : desk.Inv) {handle : Nat} {ticket : ApprovalTicket}
    (hmem : (handle, ticket) ∈ desk.prompts.tickets) (hstate : ticket.state ≠ .pending) :
    desk.Idle ticket.ticketId := by
  intro reply hreply hid hwaiting
  obtain ⟨number, hnumber⟩ := List.mem_iff_getElem?.1 hreply
  obtain ⟨-, entry, hentry, hid', hpending⟩ := h.waiting number reply hnumber hwaiting
  cases h.prompts.eq_of_ticketId hentry hmem (hid'.trans hid)
  exact hstate hpending

/-! ### Relaying -/

theorem respond_replies (number : Nat) (decision : ApprovalDecision) (desk : ApprovalDesk)
    (i : Nat) : (desk.respond number decision).replies[i]? =
      (desk.replies[i]?).map fun reply => if number = i then reply.respond decision else reply := by
  rw [respond, List.getElem?_modify]
  split
  next heq => rfl
  next hne => simp

/-- The replies after a decision was relayed to some of the requests. -/
theorem foldl_respond_replies (numbers : List Nat) (decision : ApprovalDecision)
    (desk : ApprovalDesk) (i : Nat) :
    (numbers.foldl (fun desk number => desk.respond number decision) desk).replies[i]? =
      (desk.replies[i]?).map fun reply => if i ∈ numbers then reply.respond decision else reply := by
  induction numbers generalizing desk with
  | nil => simp
  | cons number numbers ih =>
    rw [List.foldl_cons, ih, respond_replies, Option.map_map]
    apply congrArg (Option.map · _)
    funext reply
    rw [Function.comp_apply]
    by_cases hi : number = i
    · subst hi
      simp only [if_true, List.mem_cons, true_or]
      split
      next => simp only [Reply.respond]; grind
      next => rfl
    · simp only [hi, if_false, List.mem_cons, Ne.symm hi, false_or]

theorem foldl_respond_rest (numbers : List Nat) (decision : ApprovalDecision)
    (desk : ApprovalDesk) :
    (numbers.foldl (fun desk number => desk.respond number decision) desk).prompts = desk.prompts ∧
      (numbers.foldl (fun desk number => desk.respond number decision) desk).pending =
        desk.pending := by
  induction numbers generalizing desk with
  | nil => exact ⟨rfl, rfl⟩
  | cons number numbers ih => exact ih (desk.respond number decision)

theorem relay_replies (id : String) (decision : ApprovalDecision) (desk : ApprovalDesk) (i : Nat) :
    (desk.relay id decision).replies[i]? = (desk.replies[i]?).map fun reply =>
      if i ∈ (desk.pending.get? id).getD [] then reply.respond decision else reply :=
  foldl_respond_replies _ decision _ i

theorem relay_prompts (id : String) (decision : ApprovalDecision) (desk : ApprovalDesk) :
    (desk.relay id decision).prompts = desk.prompts := (foldl_respond_rest _ decision _).1

theorem relay_pending (id : String) (decision : ApprovalDecision) (desk : ApprovalDesk) :
    (desk.relay id decision).pending = desk.pending.erase id := (foldl_respond_rest _ decision _).2

/-- A decision relayed to everyone kept on its ticket: it is the first one journaled there, or
nobody waits any more. -/
theorem Inv.relay (h : desk.Inv) {q : Prompts} {id : String} {decision : ApprovalDecision}
    (hq : q.Inv) (hfollows : desk.prompts.Follows q (· = id))
    (hfirst : q.firstDecision id = some decision ∨ desk.Idle id) :
    (ApprovalDesk.relay id decision { desk with prompts := q }).Inv := by
  -- every reply of the new desk comes from one of the old, answered or left as it was
  have hreply : ∀ (i : Nat) (reply' : Reply), (ApprovalDesk.relay id decision
      { desk with prompts := q }).replies[i]? = some reply' → ∃ reply : Reply, desk.replies[i]? = some reply ∧
      ((reply' = reply ∧ (reply.Waiting → reply.ticketId ≠ id)) ∨
        (reply.ticketId = id ∧ q.firstDecision id = some decision ∧
          reply' = { reply with answer := some decision })) := by
    intro i reply' hreply'
    rw [relay_replies] at hreply'
    obtain ⟨reply, hold, rfl⟩ := Option.map_eq_some_iff.1 hreply'
    refine ⟨reply, hold, ?_⟩
    by_cases hmem : i ∈ (desk.pending.get? id).getD []
    · rw [if_pos hmem]
      obtain ⟨kept, hkept, hid⟩ := h.kept id i hmem
      cases hold.symm.trans hkept
      rcases Reply.respond_cases reply decision with ⟨hwaiting, heq⟩ | ⟨hwaiting, heq⟩
      · rcases hfirst with hfirst | hidle
        · exact .inr ⟨hid, hfirst, heq⟩
        · exact absurd hwaiting (hidle reply (List.mem_of_getElem? hold) hid)
      · exact .inl ⟨heq, fun hw => absurd hw hwaiting⟩
    · rw [if_neg hmem]
      refine .inl ⟨rfl, fun hwaiting hid => hmem ?_⟩
      have hkept := (h.waiting i reply hold hwaiting).1
      rwa [hid] at hkept
  refine ⟨?_, ?_, ?_, ?_, ?_⟩
  · rw [relay_prompts]
    exact hq
  · intro reply' hmem
    obtain ⟨i, hi⟩ := List.mem_iff_getElem?.1 hmem
    obtain ⟨reply, hold, hcase⟩ := hreply i reply' hi
    obtain ⟨entry, hentry, hid⟩ := h.filed reply (List.mem_of_getElem? hold)
    obtain ⟨entry', hentry', hid', -⟩ := hfollows.tickets entry hentry
    rw [relay_prompts]
    rcases hcase with ⟨rfl, -⟩ | ⟨-, -, rfl⟩
    · exact ⟨entry', hentry', hid'.trans hid⟩
    · exact ⟨entry', hentry', hid'.trans hid⟩
  · intro id' number hnumber
    rw [relay_pending] at hnumber
    by_cases hid : id' = id
    · rw [hid, OrdMap.get?_erase_self] at hnumber
      cases hnumber
    · rw [OrdMap.get?_erase_of_ne _ hid] at hnumber
      obtain ⟨reply, hold, hticket⟩ := h.kept id' number hnumber
      rw [relay_replies]
      refine ⟨_, by rw [hold]; rfl, ?_⟩
      split
      next =>
        rcases Reply.respond_cases reply decision with ⟨-, heq⟩ | ⟨-, heq⟩
        · exact (congrArg Reply.ticketId heq).trans hticket
        · exact (congrArg Reply.ticketId heq).trans hticket
      next => exact hticket
  · intro number reply' hnumber hwaiting
    obtain ⟨reply, hold, hcase⟩ := hreply number reply' hnumber
    rcases hcase with ⟨rfl, hne⟩ | ⟨-, -, rfl⟩
    · obtain ⟨hkept, entry, hentry, hid, hpending⟩ := h.waiting number reply' hold hwaiting
      obtain ⟨entry', hentry', hid', hstill⟩ := hfollows.tickets entry hentry
      rw [relay_pending, OrdMap.get?_erase_of_ne _ (hne hwaiting), relay_prompts]
      refine ⟨hkept, entry', hentry', hid'.trans hid, hstill hpending ?_⟩
      rw [hid]
      exact hne hwaiting
    · cases hwaiting.2
  · intro reply' hmem d hd
    obtain ⟨i, hi⟩ := List.mem_iff_getElem?.1 hmem
    obtain ⟨reply, hold, hcase⟩ := hreply i reply' hi
    rw [relay_prompts]
    rcases hcase with ⟨rfl, -⟩ | ⟨hid, hfirst, rfl⟩
    · exact hfollows.decisions _ _ (h.answered reply' (List.mem_of_getElem? hold) d hd)
    · cases hd
      rw [← hid] at hfirst
      exact hfirst

/-! ### The operations keep the invariant -/

theorem booking_eq {α : Type} {x : Booking α} {result : Except ApprovalError α} {q : Prompts}
    (h : x desk.prompts = (result, q)) : booking x desk = (result, { desk with prompts := q }) := by
  rw [booking, Action.zoom, h]

/-- A filed request, with a reply channel that is answered, or kept on an open ticket. -/
theorem Inv.push (h : desk.Inv) {reply : Reply} {entry : Nat × ApprovalTicket}
    (hentry : entry ∈ desk.prompts.tickets) (hid : entry.2.ticketId = reply.ticketId)
    (hanswer : ∀ decision, reply.answer = some decision →
      desk.prompts.firstDecision reply.ticketId = some decision)
    (hwaiting : ¬ reply.Waiting) : { desk with replies := desk.replies ++ [reply] }.Inv := by
  refine ⟨h.prompts, ?_, ?_, ?_, ?_⟩
  · intro other hother
    rcases List.mem_append.1 hother with hmem | hmem
    · exact h.filed other hmem
    · cases List.mem_singleton.1 hmem
      exact ⟨entry, hentry, hid⟩
  · intro id number hnumber
    obtain ⟨other, hother, hticket⟩ := h.kept id number hnumber
    have hlt := (List.getElem?_eq_some_iff.1 hother).1
    exact ⟨other, by rw [List.getElem?_append_left hlt]; exact hother, hticket⟩
  · intro number other hother hw
    rw [List.getElem?_append] at hother
    split at hother
    next => exact h.waiting number other hother hw
    next =>
      cases List.mem_singleton.1 (List.mem_of_getElem? hother)
      exact absurd hw hwaiting
  · intro other hother decision hdecision
    rcases List.mem_append.1 hother with hmem | hmem
    · exact h.answered other hmem decision hdecision
    · cases List.mem_singleton.1 hmem
      exact hanswer decision hdecision

theorem Inv.push_keep (h : desk.Inv) {entry : Nat × ApprovalTicket} {id : String}
    (hentry : entry ∈ desk.prompts.tickets) (hid : entry.2.ticketId = id)
    (hpending : entry.2.state = .pending) :
    (keep id desk.replies.length { desk with replies := desk.replies ++ [{ ticketId := id }] }).Inv := by
  refine ⟨h.prompts, ?_, ?_, ?_, ?_⟩
  · intro other hother
    rcases List.mem_append.1 hother with hmem | hmem
    · exact h.filed other hmem
    · cases List.mem_singleton.1 hmem
      exact ⟨entry, hentry, hid⟩
  · intro id' number hnumber
    rw [keep] at hnumber ⊢
    by_cases heq : id' = id
    · subst heq
      rw [OrdMap.get?_insert_self, Option.getD_some] at hnumber
      rcases List.mem_append.1 hnumber with hmem | hmem
      · obtain ⟨other, hother, hticket⟩ := h.kept id' number hmem
        have hlt := (List.getElem?_eq_some_iff.1 hother).1
        exact ⟨other, by rw [List.getElem?_append_left hlt]; exact hother, hticket⟩
      · cases List.mem_singleton.1 hmem
        exact ⟨{ ticketId := id' }, List.getElem?_concat_length, rfl⟩
    · rw [OrdMap.get?_insert_of_ne _ _ heq] at hnumber
      obtain ⟨other, hother, hticket⟩ := h.kept id' number hnumber
      have hlt := (List.getElem?_eq_some_iff.1 hother).1
      exact ⟨other, by rw [List.getElem?_append_left hlt]; exact hother, hticket⟩
  · intro number other hother hw
    rw [keep] at hother ⊢
    rw [List.getElem?_append] at hother
    split at hother
    next =>
      obtain ⟨hkept, hticket⟩ := h.waiting number other hother hw
      refine ⟨?_, hticket⟩
      by_cases heq : other.ticketId = id
      · rw [heq] at hkept ⊢
        rw [OrdMap.get?_insert_self, Option.getD_some]
        exact List.mem_append_left _ hkept
      · rw [OrdMap.get?_insert_of_ne _ _ heq]
        exact hkept
    next hge =>
      have hnumber : number = desk.replies.length := by
        have hlt := (List.getElem?_eq_some_iff.1 hother).1
        rw [List.length_singleton] at hlt
        omega
      cases List.mem_singleton.1 (List.mem_of_getElem? hother)
      rw [OrdMap.get?_insert_self, Option.getD_some, hnumber]
      exact ⟨List.mem_append_right _ (List.mem_singleton_self _), entry, hentry, hid, hpending⟩
  · intro other hother decision hdecision
    rcases List.mem_append.1 hother with hmem | hmem
    · exact h.answered other hmem decision hdecision
    · cases List.mem_singleton.1 hmem
      cases hdecision

/-- If a grant would answer the prompt a filing merges into, nobody waits on that prompt. -/
def Unattended (desk : ApprovalDesk) (invocationId : Option String) (reasons : List ApprovalSpec) :
    Prop :=
  ∀ handle ticket, ApprovalBook.existing desk.prompts invocationId = some (handle, ticket) →
    sessionGrant desk.prompts { ticket with reasons := ticket.reasons ++ reasons } ≠ none →
    desk.Idle ticket.ticketId

/-- After a filing that a grant answers, nobody waits on the ticket. -/
theorem Inv.idle_of_openFor (h : desk.Inv) {invocationId : Option String}
    {reasons : List ApprovalSpec} (hunattended : desk.Unattended invocationId reasons)
    {ticket : ApprovalTicket} {q : Prompts}
    (hcase : (∃ handle old, ApprovalBook.existing desk.prompts invocationId = some (handle, old) ∧
        ticket = { old with reasons := old.reasons ++ reasons } ∧
        q = (desk.prompts.setTicket handle ticket).record (.merge ticket)) ∨
      (ApprovalBook.existing desk.prompts invocationId = none ∧
        (∀ entry ∈ desk.prompts.tickets, entry.2.ticketId ≠ ticket.ticketId) ∧
        q = (desk.prompts.insert ticket).record (.open ticket)))
    (hgrant : sessionGrant q ticket ≠ none) : desk.Idle ticket.ticketId := by
  rcases hcase with ⟨handle, old, hexisting, rfl, rfl⟩ | ⟨-, hfresh, -⟩
  · apply hunattended handle old hexisting
    have hmem := (ApprovalBook.existing_eq_some hexisting).1
    rw [sessionGrant_setTicket_record] at hgrant
    · exact hgrant
    · intro entry hentry hhandle
      cases List.inj_on_of_nodup_map h.prompts.distinct hentry hmem hhandle
      rfl
  · intro reply hreply hid
    obtain ⟨entry, hentry, hticket⟩ := h.filed reply hreply
    exact absurd (hticket.trans hid) (hfresh entry hentry)

/-- What a decision of the book does on a ticket on which nobody waits. -/
theorem Inv.decide_idle (h : desk.Inv) {id : String} (hidle : desk.Idle id)
    (decision : ApprovalDecision) (append : Append) :
    ∃ result q, ApprovalBook.decide id decision append desk.prompts = (result, q) ∧
      { desk with prompts := q }.Inv ∧
      ∀ ticket, result = .ok ticket → ticket.ticketId = id ∧
        (∃ entry ∈ q.tickets, entry.2.ticketId = id) ∧
        ((∃ entry ∈ desk.prompts.tickets, entry.2.ticketId = id ∧ entry.2.state = .pending) →
          q.firstDecision id = some decision) := by
  rcases ApprovalBook.decideInner_cases h.prompts id decision none append with
    ⟨e, hdecide⟩ | ⟨ticket, handle, hdecide, hmem, hid, hstate⟩ | ⟨ticket, entry, hkey, -⟩ |
      ⟨ticket, appended, q, hdecide, hid, hq, hfollows, hfirst, -⟩
  · exact ⟨_, _, ApprovalBook.decide_of_error hdecide, h, fun ticket hok => by cases hok⟩
  · refine ⟨_, _, ApprovalBook.decide_of_ok hdecide, h, ?_⟩
    intro ticket' hok
    cases hok
    refine ⟨hid, ⟨_, hmem, hid⟩, ?_⟩
    intro hopen
    obtain ⟨entry, hentry, hid', hpending⟩ := hopen
    cases h.prompts.eq_of_ticketId hentry hmem (hid'.trans hid.symm)
    exact absurd hpending hstate
  · exact absurd rfl hkey
  · refine ⟨_, _, ApprovalBook.decide_of_ok hdecide, ?_, ?_⟩
    · refine h.follow hq hfollows ?_
      intro id' hid'
      rw [hid']
      exact hidle
    · intro ticket' hok
      cases hok
      exact ⟨hid, hq.known id (by rw [hfirst]; exact Option.some_ne_none decision), fun _ => hfirst⟩

theorem Inv.fileSpecs (h : desk.Inv) {callId : String} {specs : List ApprovalSpec}
    (hunattended : desk.Unattended (some callId) specs) (now : UInt64)
    (opening deciding : Append) :
    (ApprovalDesk.fileSpecs callId specs now opening deciding desk).2.Inv := by
  rw [ApprovalDesk.fileSpecs]
  rcases ApprovalBook.openFor_cases h.prompts (some callId) specs now opening with
    ⟨e, hopen⟩ | ⟨ticket, q, hopen, hq, hfollows, -, hcase⟩
  · rw [Action.bind_of_error (booking_eq hopen)]
    exact h
  · have hopened : { desk with prompts := q }.Inv := h.follow hq hfollows fun _ => False.elim
    rw [Action.bind_of_ok (booking_eq hopen)]
    cases hgrant : sessionGrant q ticket with
    | none =>
      simp only [Action.bind_reads_ok, hgrant]
      exact hopened
    | some grant =>
      simp only [Action.bind_reads_ok, hgrant]
      have hidle := h.idle_of_openFor hunattended hcase
        (by rw [hgrant]; exact Option.some_ne_none grant)
      obtain ⟨result, q', hdecide, hinv, -⟩ := hopened.decide_idle hidle grant deciding
      simp only [booking_eq hdecide]
      exact hinv

theorem modify_concat {α : Type} (l : List α) (a : α) (f : α → α) :
    (l ++ [a]).modify l.length f = l ++ [f a] := by
  induction l with
  | nil => rfl
  | cons b l ih => simp [ih]

theorem Inv.file (h : desk.Inv) {invocationId : Option String} {reasons : List ApprovalSpec}
    (hunattended : desk.Unattended invocationId reasons) (createdAtMs : UInt64)
    (opening deciding : Append) :
    (ApprovalDesk.file invocationId reasons createdAtMs opening deciding desk).2.Inv := by
  rw [ApprovalDesk.file]
  rcases ApprovalBook.openFor_cases h.prompts invocationId reasons createdAtMs opening with
    ⟨e, hopen⟩ | ⟨ticket, q, hopen, hq, hfollows, hpending, hcase⟩
  · rw [Action.bind_of_error (booking_eq hopen)]
    exact h
  · have hopened : { desk with prompts := q }.Inv := h.follow hq hfollows fun _ => False.elim
    rw [Action.bind_of_ok (booking_eq hopen)]
    cases hgrant : sessionGrant q ticket with
    | none =>
      simp only [Action.bind_reads_ok, hgrant]
      obtain ⟨entry, hentry, hid, hstate⟩ := hpending
      exact hopened.push_keep hentry hid hstate
    | some grant =>
      simp only [Action.bind_reads_ok, hgrant]
      have hidle := h.idle_of_openFor hunattended hcase
        (by rw [hgrant]; exact Option.some_ne_none grant)
      obtain ⟨result, q', hdecide, hinv, hok⟩ := hopened.decide_idle hidle grant deciding
      cases result with
      | error e =>
        simp only [Action.bind_of_error (booking_eq hdecide)]
        exact hinv
      | ok final =>
        obtain ⟨hid, ⟨entry, hentry, hentryId⟩, hfirst⟩ := hok final rfl
        have hpushed := @Inv.push _ hinv { ticketId := final.ticketId, answer := some grant } entry
          hentry (hentryId.trans hid.symm)
          (fun decision hanswer => by cases hanswer; rw [hid]; exact hfirst hpending)
          (fun hwaiting => by cases hwaiting.2)
        simp only [Action.bind_of_ok (booking_eq hdecide)]
        change (ApprovalDesk.respond _ _ _).Inv
        rw [ApprovalDesk.respond, modify_concat]
        exact hpushed

theorem Inv.decide (h : desk.Inv) (id : String) (decision : ApprovalDecision) (append : Append) :
    (ApprovalDesk.decide id decision append desk).2.Inv := by
  rw [ApprovalDesk.decide]
  rcases ApprovalBook.decideInner_cases h.prompts id decision none append with
    ⟨e, hdecide⟩ | ⟨ticket, handle, hdecide, hmem, hid, hstate⟩ | ⟨ticket, entry, hkey, -⟩ |
      ⟨ticket, appended, q, hdecide, -, hq, hfollows, hfirst, -⟩
  · rw [Action.bind_of_error (booking_eq (ApprovalBook.decide_of_error hdecide))]
    exact h
  · rw [Action.bind_of_ok (booking_eq (ApprovalBook.decide_of_ok hdecide))]
    refine h.relay h.prompts ?_ (.inr (hid ▸ h.idle_of_not_pending hmem hstate))
    exact ⟨fun entry hentry => ⟨entry, hentry, rfl, fun hpending _ => hpending⟩, fun _ _ h => h⟩
  · exact absurd rfl hkey
  · rw [Action.bind_of_ok (booking_eq (ApprovalBook.decide_of_ok hdecide))]
    exact h.relay hq hfollows (.inl hfirst)

theorem Inv.decideKeyed (h : desk.Inv) (id : String) (decision : ApprovalDecision) (key : String)
    (append : Append) : (ApprovalDesk.decideKeyed id decision key append desk).2.Inv := by
  rw [ApprovalDesk.decideKeyed]
  cases hreplayed : desk.prompts.replayKeyed key id decision with
  | error e =>
    rw [Action.bind_of_error (e := .session e) (t := desk) (by rw [Action.reads, hreplayed])]
    exact h
  | ok replayed =>
    rw [Action.bind_of_ok (a := replayed) (t := desk) (by rw [Action.reads, hreplayed])]
    cases replayed with
    | some entry => exact h
    | none =>
      rcases ApprovalBook.decideInner_cases h.prompts id decision (some key) append with
        ⟨e, hdecide⟩ | ⟨ticket, handle, hdecide, -⟩ | ⟨ticket, entry, -, hdecide⟩ |
          ⟨ticket, appended, q, hdecide, -, hq, hfollows, hfirst, -⟩
      · simp only [Action.bind_of_error (booking_eq hdecide)]
        exact h
      · simp only [Action.bind_of_ok (booking_eq hdecide)]
        exact h
      · simp only [Action.bind_of_ok (booking_eq hdecide)]
        exact h
      · simp only [Action.bind_of_ok (booking_eq hdecide)]
        exact h.relay hq hfollows (.inl hfirst)

theorem get?_foldl_erase {κ ν : Type} [LinearOrder κ] (keys : List κ) (m : OrdMap κ ν) {key : κ}
    (h : key ∉ keys) : (keys.foldl (fun m key => m.erase key) m).get? key = m.get? key := by
  induction keys generalizing m with
  | nil => rfl
  | cons k keys ih =>
    rw [List.mem_cons, not_or] at h
    rw [List.foldl_cons, ih _ h.2, OrdMap.get?_erase_of_ne _ h.1]

theorem get?_foldl_erase_le {κ ν : Type} [LinearOrder κ] (keys : List κ) (m : OrdMap κ ν) {key : κ}
    {value : ν} (h : (keys.foldl (fun m key => m.erase key) m).get? key = some value) :
    m.get? key = some value := by
  induction keys generalizing m with
  | nil => exact h
  | cons k keys ih =>
    have hmem := OrdMap.get?_eq_some_iff.1 (ih _ h)
    exact OrdMap.get?_eq_some_iff.2 (OrdMap.mem_erase.1 hmem).1

theorem Inv.idle_of_abandoned (h : desk.Inv) {id : String} (hid : id ∈ desk.abandoned) :
    desk.Idle id := by
  intro reply hreply hticket hwaiting
  obtain ⟨number, hnumber⟩ := List.mem_iff_getElem?.1 hreply
  obtain ⟨entry, hentry, rfl⟩ := List.mem_map.1 hid
  obtain ⟨hmem, hall⟩ := List.mem_filter.1 hentry
  have hkept := (h.waiting number reply hnumber hwaiting).1
  rw [hticket, OrdMap.get?_eq_some_iff.2 hmem, Option.getD_some] at hkept
  have hgone := List.all_eq_true.1 hall number hkept
  rw [isAbandoned, hnumber, Option.all_some, hwaiting.1] at hgone
  cases hgone

theorem Inv.withdrawAll (appends : String → Append) (ids : List String) :
    ∀ {desk : ApprovalDesk}, desk.Inv → (∀ id ∈ ids, desk.Idle id) →
      (ApprovalDesk.withdrawAll appends ids desk).2.Inv := by
  induction ids with
  | nil => exact fun h _ => h
  | cons id ids ih =>
    intro desk h hidle
    obtain ⟨result, q, hwithdraw, hq, hfollows, -⟩ :=
      ApprovalBook.withdraw_cases h.prompts id (appends id)
    have hinv : { desk with prompts := q }.Inv := by
      refine h.follow hq hfollows ?_
      intro id' hid'
      rw [hid']
      exact hidle id List.mem_cons_self
    rw [ApprovalDesk.withdrawAll]
    cases result with
    | error e =>
      rw [Action.bind_of_error (booking_eq hwithdraw)]
      exact hinv
    | ok ticket =>
      rw [Action.bind_of_ok (booking_eq hwithdraw)]
      exact ih hinv fun id' hid' => hidle id' (List.mem_cons_of_mem _ hid')

theorem Inv.sweep (h : desk.Inv) (appends : String → Append) :
    (ApprovalDesk.sweep appends desk).2.Inv := by
  have hremoved : { desk with
      pending := desk.abandoned.foldl (fun m id => m.erase id) desk.pending }.Inv := by
    refine ⟨h.prompts, h.filed, ?_, ?_, h.answered⟩
    · intro id number hnumber
      apply h.kept id number
      cases hget : (desk.abandoned.foldl (fun m id => m.erase id) desk.pending).get? id with
      | none =>
        rw [hget] at hnumber
        cases hnumber
      | some numbers =>
        rw [hget] at hnumber
        rw [get?_foldl_erase_le _ _ hget]
        exact hnumber
    · intro number reply hnumber hwaiting
      obtain ⟨hkept, hopen⟩ := h.waiting number reply hnumber hwaiting
      refine ⟨?_, hopen⟩
      rw [get?_foldl_erase]
      · exact hkept
      · intro hid
        exact h.idle_of_abandoned hid reply (List.mem_of_getElem? hnumber) rfl hwaiting
  exact hremoved.withdrawAll appends desk.abandoned fun id hid reply hreply =>
    h.idle_of_abandoned hid reply hreply

/-! ### Runs -/

/-- One step at the desk, with what the journal answers to its appends. -/
inductive Move where
  | file (invocationId : Option String) (reasons : List ApprovalSpec) (createdAtMs : UInt64)
    (opening deciding : Append)
  | fileSpecs (callId : String) (specs : List ApprovalSpec) (now : UInt64)
    (opening deciding : Append)
  | decide (id : String) (decision : ApprovalDecision) (append : Append)
  | decideKeyed (id : String) (decision : ApprovalDecision) (key : String) (append : Append)
  | sweep (appends : String → Append)
  /-- The policy of a request took its answer, or stopped waiting. -/
  | leave (number : Nat)
  /-- The session journals something else. -/
  | work (handles entries : Nat) (key : String) (entry : EntryId)

def leave (number : Nat) (desk : ApprovalDesk) : ApprovalDesk :=
  { desk with replies := desk.replies.modify number fun reply => { reply with receiving := false } }

def work (handles entries : Nat) (key : String) (entry : EntryId) (desk : ApprovalDesk) :
    ApprovalDesk := { desk with prompts := desk.prompts.work handles entries key entry }

def step (desk : ApprovalDesk) : Move → ApprovalDesk
  | .file invocationId reasons createdAtMs opening deciding =>
    (file invocationId reasons createdAtMs opening deciding desk).2
  | .fileSpecs callId specs now opening deciding =>
    (fileSpecs callId specs now opening deciding desk).2
  | .decide id decision append => (ApprovalDesk.decide id decision append desk).2
  | .decideKeyed id decision key append => (decideKeyed id decision key append desk).2
  | .sweep appends => (sweep appends desk).2
  | .leave number => leave number desk
  | .work handles entries key entry => work handles entries key entry desk

def run (desk : ApprovalDesk) (moves : List Move) : ApprovalDesk := moves.foldl step desk

/-- A desk over a session that has no prompts yet. -/
def start (highWater entryCount : Nat) (keys : String → Option KeyUse) : ApprovalDesk :=
  { prompts := { highWater, entryCount, keys } }

/-- A step that does not let a grant answer a prompt on which somebody waits. -/
def Sound (desk : ApprovalDesk) : Move → Prop
  | .file invocationId reasons .. => desk.Unattended invocationId reasons
  | .fileSpecs callId specs .. => desk.Unattended (some callId) specs
  | _ => True

def SoundRun (desk : ApprovalDesk) : List Move → Prop
  | [] => True
  | move :: moves => desk.Sound move ∧ (desk.step move).SoundRun moves

theorem Inv.leave (h : desk.Inv) (number : Nat) : (ApprovalDesk.leave number desk).Inv := by
  -- the replies are those of before, some of them no longer received
  have hreply : ∀ (i : Nat) (reply' : Reply), (ApprovalDesk.leave number desk).replies[i]? =
      some reply' → ∃ reply : Reply, desk.replies[i]? = some reply ∧
        reply'.ticketId = reply.ticketId ∧ reply'.answer = reply.answer ∧
        (reply'.receiving = true → reply.receiving = true) := by
    intro i reply' hi
    rw [ApprovalDesk.leave, List.getElem?_modify] at hi
    obtain ⟨reply, hold, rfl⟩ := Option.map_eq_some_iff.1 hi
    refine ⟨reply, hold, ?_⟩
    split
    · exact ⟨rfl, rfl, fun hreceiving => by cases hreceiving⟩
    · exact ⟨rfl, rfl, fun hreceiving => hreceiving⟩
  refine ⟨h.prompts, ?_, ?_, ?_, ?_⟩
  · intro reply' hmem
    obtain ⟨i, hi⟩ := List.mem_iff_getElem?.1 hmem
    obtain ⟨reply, hold, hticket, -⟩ := hreply i reply' hi
    rw [hticket]
    exact h.filed reply (List.mem_of_getElem? hold)
  · intro id i hi
    obtain ⟨reply, hold, hticket⟩ := h.kept id i hi
    rw [ApprovalDesk.leave, List.getElem?_modify, hold]
    refine ⟨_, rfl, ?_⟩
    split
    · exact hticket
    · exact hticket
  · intro i reply' hi hwaiting
    obtain ⟨reply, hold, hticket, hanswer, hreceiving⟩ := hreply i reply' hi
    rw [hticket]
    exact h.waiting i reply hold ⟨hreceiving hwaiting.1, hanswer ▸ hwaiting.2⟩
  · intro reply' hmem decision hdecision
    obtain ⟨i, hi⟩ := List.mem_iff_getElem?.1 hmem
    obtain ⟨reply, hold, hticket, hanswer, -⟩ := hreply i reply' hi
    rw [hticket]
    exact h.answered reply (List.mem_of_getElem? hold) decision (hanswer ▸ hdecision)

theorem Inv.work (h : desk.Inv) (handles entries : Nat) (key : String) (entry : EntryId) :
    (ApprovalDesk.work handles entries key entry desk).Inv :=
  ⟨h.prompts.work handles entries key entry, h.filed, h.kept, h.waiting, h.answered⟩

theorem Inv.step (h : desk.Inv) {move : Move} (hsound : desk.Sound move) : (desk.step move).Inv := by
  cases move with
  | file invocationId reasons createdAtMs opening deciding =>
    exact h.file hsound createdAtMs opening deciding
  | fileSpecs callId specs now opening deciding => exact h.fileSpecs hsound now opening deciding
  | decide id decision append => exact h.decide id decision append
  | decideKeyed id decision key append => exact h.decideKeyed id decision key append
  | sweep appends => exact h.sweep appends
  | leave number => exact h.leave number
  | work handles entries key entry => exact h.work handles entries key entry

theorem Inv.run {moves : List Move} : ∀ {desk : ApprovalDesk}, desk.Inv → desk.SoundRun moves →
    (desk.run moves).Inv := by
  induction moves with
  | nil => exact fun h _ => h
  | cons move moves ih => exact fun h hsound => ih (h.step hsound.1) hsound.2

theorem start_inv (highWater entryCount : Nat) (keys : String → Option KeyUse) :
    (start highWater entryCount keys).Inv := by
  refine ⟨⟨?_, List.nodup_nil, ?_, ?_, fun id hid => absurd rfl hid⟩, ?_, ?_, ?_, ?_⟩
  · intro entry hentry
    cases hentry
  · intro entry hentry
    cases hentry
  · intro entry hentry
    cases hentry
  · intro reply hreply
    cases hreply
  · intro id number hnumber
    cases hnumber
  · intro number reply hnumber
    cases hnumber
  · intro reply hreply
    cases hreply

/-- Answers are never changed, and requests stay on their ticket. -/
def Keeps (desk next : ApprovalDesk) : Prop :=
  ∀ (number : Nat) (reply : Reply), desk.replies[number]? = some reply →
    ∃ reply' : Reply, next.replies[number]? = some reply' ∧ reply'.ticketId = reply.ticketId ∧
      ∀ decision, reply.answer = some decision → reply'.answer = some decision

theorem Keeps.refl (desk : ApprovalDesk) : desk.Keeps desk := fun _ reply h =>
  ⟨reply, h, rfl, fun _ h => h⟩

theorem Keeps.trans (a b c : ApprovalDesk) (hab : a.Keeps b) (hbc : b.Keeps c) : a.Keeps c := by
  intro number reply h
  obtain ⟨reply', h', hid, hanswer⟩ := hab number reply h
  obtain ⟨reply'', h'', hid', hanswer'⟩ := hbc number reply' h'
  exact ⟨reply'', h'', hid'.trans hid, fun decision hd => hanswer' decision (hanswer decision hd)⟩

/-- One reply rewritten, keeping its answer. -/
theorem keeps_modify (desk : ApprovalDesk) (number : Nat) {f : Reply → Reply}
    (hf : ∀ reply : Reply, (f reply).ticketId = reply.ticketId ∧
      ∀ decision, reply.answer = some decision → (f reply).answer = some decision) :
    desk.Keeps { desk with replies := desk.replies.modify number f } := by
  intro i reply h
  rw [List.getElem?_modify, h]
  by_cases hi : number = i
  · exact ⟨f reply, by simp [hi], hf reply⟩
  · exact ⟨reply, by simp [hi], rfl, fun _ h => h⟩

theorem keeps_respond (number : Nat) (decision : ApprovalDecision) (desk : ApprovalDesk) :
    desk.Keeps (desk.respond number decision) := by
  apply keeps_modify
  intro reply
  rcases Reply.respond_cases reply decision with ⟨hwaiting, heq⟩ | ⟨-, heq⟩
  · rw [heq]
    exact ⟨rfl, fun other hother => absurd (hwaiting.2.symm.trans hother) (by simp)⟩
  · rw [heq]
    exact ⟨rfl, fun _ h => h⟩

theorem keeps_relay (id : String) (decision : ApprovalDecision) (desk : ApprovalDesk) :
    desk.Keeps (desk.relay id decision) := by
  have hfold : ∀ (numbers : List Nat) (desk : ApprovalDesk),
      desk.Keeps (numbers.foldl (fun desk number => desk.respond number decision) desk) := by
    intro numbers
    induction numbers with
    | nil => exact Keeps.refl
    | cons number numbers ih =>
      exact fun desk => Keeps.trans _ _ _ (keeps_respond number decision desk) (ih _)
  exact hfold _ { desk with pending := desk.pending.erase id }

theorem keeps_push (reply : Reply) (desk : ApprovalDesk) :
    desk.Keeps { desk with replies := desk.replies ++ [reply] } := by
  intro number other h
  have hlt := (List.getElem?_eq_some_iff.1 h).1
  exact ⟨other, by rw [List.getElem?_append_left hlt]; exact h, rfl, fun _ h => h⟩

theorem moves_booking {α : Type} (x : Booking α) : Action.Moves Keeps (booking x) := fun desk =>
  Keeps.refl desk

theorem keeps_file (invocationId : Option String) (reasons : List ApprovalSpec)
    (createdAtMs : UInt64) (opening deciding : Append) :
    Action.Moves Keeps (file invocationId reasons createdAtMs opening deciding) := by
  refine .bind Keeps.trans (moves_booking _) fun ticket => ?_
  refine .bind Keeps.trans (.reads Keeps.refl _) fun grant => ?_
  refine .bind Keeps.trans (.reads Keeps.refl _) fun number => ?_
  cases grant with
  | some grant =>
    refine .bind Keeps.trans (moves_booking _) fun ticket => ?_
    refine .bind Keeps.trans (.modify (keeps_push _)) fun _ => ?_
    refine .bind Keeps.trans (.modify (keeps_respond number grant)) fun _ => ?_
    exact .pure Keeps.refl ticket
  | none =>
    refine .bind Keeps.trans (.modify (keeps_push _)) fun _ => ?_
    refine .bind Keeps.trans (.modify fun desk => Keeps.refl desk) fun _ => ?_
    exact .pure Keeps.refl ticket

theorem keeps_fileSpecs (callId : String) (specs : List ApprovalSpec) (now : UInt64)
    (opening deciding : Append) :
    Action.Moves Keeps (fileSpecs callId specs now opening deciding) := by
  refine .bind Keeps.trans (moves_booking _) fun ticket => ?_
  refine .bind Keeps.trans (.reads Keeps.refl _) fun grant => ?_
  cases grant with
  | some grant => exact moves_booking _
  | none => exact .pure Keeps.refl ticket

theorem keeps_decideKeyed (id : String) (decision : ApprovalDecision) (key : String)
    (append : Append) : Action.Moves Keeps (decideKeyed id decision key append) := by
  refine .bind Keeps.trans (.reads Keeps.refl _) fun replayed => ?_
  cases replayed with
  | some entry => exact .pure Keeps.refl _
  | none =>
    refine .bind Keeps.trans (moves_booking _) fun result => ?_
    obtain ⟨ticket, outcome⟩ := result
    cases outcome with
    | none => exact .pure Keeps.refl _
    | some outcome =>
      cases outcome with
      | appended entry =>
        refine .bind Keeps.trans (.modify (keeps_relay id decision)) fun _ => ?_
        refine .bind Keeps.trans (.reads Keeps.refl _) fun seq => ?_
        exact .pure Keeps.refl _
      | replayed entry => exact .pure Keeps.refl _

theorem keeps_withdrawAll (appends : String → Append) (ids : List String) :
    Action.Moves Keeps (withdrawAll appends ids) := by
  induction ids with
  | nil => exact .pure Keeps.refl ()
  | cons id ids ih => exact .bind Keeps.trans (moves_booking _) fun _ => ih

theorem keeps_sweep (appends : String → Append) : Action.Moves Keeps (sweep appends) := by
  refine .bind Keeps.trans (.reads Keeps.refl _) fun ids => ?_
  refine .bind Keeps.trans (.modify fun desk => Keeps.refl desk) fun _ => ?_
  exact keeps_withdrawAll appends ids

theorem keeps_step (desk : ApprovalDesk) (move : Move) : desk.Keeps (desk.step move) := by
  cases move with
  | file invocationId reasons createdAtMs opening deciding =>
    exact keeps_file invocationId reasons createdAtMs opening deciding desk
  | fileSpecs callId specs now opening deciding =>
    exact keeps_fileSpecs callId specs now opening deciding desk
  | decide id decision append =>
    exact Action.Moves.bind Keeps.trans (moves_booking _) (fun _ => .bind Keeps.trans
      (.modify (keeps_relay id decision)) fun _ => .pure Keeps.refl _) desk
  | decideKeyed id decision key append => exact keeps_decideKeyed id decision key append desk
  | sweep appends => exact keeps_sweep appends desk
  | leave number => exact keeps_modify desk number fun reply => ⟨rfl, fun _ h => h⟩
  | work handles entries key entry => exact Keeps.refl desk

theorem keeps_run (moves : List Move) : ∀ desk : ApprovalDesk, desk.Keeps (desk.run moves) := by
  induction moves with
  | nil => exact Keeps.refl
  | cons move moves ih => exact fun desk => Keeps.trans _ _ _ (keeps_step desk move) (ih _)

/-- **Answers are the journaled ones.** In every run in which no grant answers a prompt on which
somebody waits, an answer is the first decision journaled on the request's ticket and is never
followed by another, and nobody is left waiting on a decided ticket. -/
theorem start_run_truthful (highWater entryCount : Nat) (keys : String → Option KeyUse)
    (moves : List Move) (h : (start highWater entryCount keys).SoundRun moves) :
    ((start highWater entryCount keys).run moves).Truthful ∧
      ∀ more, ((start highWater entryCount keys).run moves).Keeps
        (((start highWater entryCount keys).run moves).run more) :=
  ⟨((start_inv highWater entryCount keys).run h).truthful, fun more => keeps_run more _⟩

/-- A requirement that may be granted for the session. -/
def sessionSpec (subject : String) : ApprovalSpec :=
  { subject, kind := "exec", scopes := ["once", "session"] }

theorem start_run_truthful_answered :
    ((start 4 1 fun _ => none).run
      [.file (some "call") [sessionSpec "ls"] 0 (.ok Dom.sampleCause) (.ok Dom.sampleCause),
        .decide "approval-5" { approved := true, scope := .once, source := .user }
          (.ok Dom.sampleCause)]).Truthful := by
  apply And.left
  apply start_run_truthful
  refine ⟨?_, trivial, trivial⟩
  intro handle ticket h
  cases h

/-- A grant decides a prompt on which a request waits; the request is then told a later answer,
which was never journaled. -/
theorem granted_prompt_not_truthful :
    ¬ ((start 4 1 fun _ => none).run
      [.file (some "call") [sessionSpec "ls"] 0 (.ok Dom.sampleCause) (.ok Dom.sampleCause),
        .fileSpecs "other" [sessionSpec "ls", sessionSpec "cat"] 0 (.ok Dom.sampleCause)
          (.ok Dom.sampleCause),
        .decide "approval-6" { approved := true, scope := .session, source := .user }
          (.ok Dom.sampleCause),
        .file (some "call") [sessionSpec "cat"] 0 (.ok Dom.sampleCause) (.ok Dom.sampleCause),
        .decide "approval-5" { approved := false, scope := .once, source := .user }
          (.ok Dom.sampleCause)]).Truthful := by
  intro h
  have hfirst := (h { ticketId := "approval-5"
                      answer := some { approved := false, scope := .once, source := .user } }
    (List.mem_of_getElem? (i := 0) (by rfl))).1 _ rfl
  exact absurd (congrArg (Option.map ApprovalDecision.approved) hfirst) (by decide +kernel)

end ApprovalDesk

end OhMyPi
