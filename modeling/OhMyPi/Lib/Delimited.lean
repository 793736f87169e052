import Mathlib.Data.List.Basic
import Mathlib.Data.List.Infix

/-! Texts with tokens between doubled delimiters. A scan goes from left to right: it pairs a doubled
delimiter with the next one, and either accepts what stands between them and goes on behind the
pair, or rejects it and takes the second delimiter for the opening of the next candidate. The two
uses of a delimiter make the result depend on what stands in front of a token: `segments_append`
says which surroundings leave a token in its place. -/

namespace Delimited

variable {α : Type _} [DecidableEq α] {d : α} {accept : List α → Bool}

/-! ## The leftmost delimiter -/

/-- The text before the leftmost doubled `d` and the text behind it. -/
def cut (d : α) : List α → Option (List α × List α)
  | x :: y :: rest =>
    if x = d ∧ y = d then some ([], rest)
    else (cut d (y :: rest)).map fun p => (x :: p.1, p.2)
  | _ => none

omit [DecidableEq α] in
/-- No doubled `d` stands in the text. -/
def Single (d : α) (text : List α) : Prop := ¬ [d, d] <:+: text

omit [DecidableEq α] in
theorem Single.of_infix (h : Single d t) (hs : s <:+: t) : Single d s := fun hd => h (hd.trans hs)

omit [DecidableEq α] in
theorem single_cons_cons {x y : α} {t : List α} :
    Single d (x :: y :: t) ↔ ¬ (x = d ∧ y = d) ∧ Single d (y :: t) := by
  have hhead : [d, d] <+: x :: y :: t ↔ x = d ∧ y = d := by
    rw [List.cons_prefix_cons, List.cons_prefix_cons]
    simp [eq_comm]
  rw [Single, List.infix_cons_iff, not_or, hhead, Single]

omit [DecidableEq α] in
theorem single_singleton (x : α) : Single d [x] := fun h => by
  have := h.length_le
  simp at this

omit [DecidableEq α] in
/-- A text that neither holds nor ends in a delimiter may be followed by half of one. -/
theorem Single.concat (h : Single d t) (hend : ¬ [d] <:+ t) : Single d (t ++ [d]) := by
  rintro ⟨u, v, heq⟩
  rcases List.eq_nil_or_concat v with rfl | ⟨v, x, rfl⟩
  · have heq : (u ++ [d]) ++ [d] = t ++ [d] := by simpa using heq
    exact hend ⟨u, List.append_cancel_right heq⟩
  · rw [List.concat_eq_append, ← List.append_assoc] at heq
    exact h ⟨u, v, (List.append_inj_left' heq rfl)⟩

omit [DecidableEq α] in
theorem single_of_not_mem (h : d ∉ t) : Single d t := fun ⟨_, _, heq⟩ => h (heq ▸ by simp)

theorem cut_eq_none {t : List α} : cut d t = none ↔ Single d t := by
  induction t with
  | nil =>
    have hnil : Single d ([] : List α) := single_of_not_mem List.not_mem_nil
    simp [cut, hnil]
  | cons x t ih =>
    cases t with
    | nil => simp [cut, single_singleton]
    | cons y t =>
      rw [cut, single_cons_cons, ← ih]
      split <;> simp_all

theorem cut_eq_some {t before after : List α} : cut d t = some (before, after) ↔
    t = before ++ d :: d :: after ∧ Single d (before ++ [d]) := by
  induction t generalizing before with
  | nil => simp [cut]
  | cons x t ih =>
    cases t with
    | nil =>
      refine iff_of_false (by simp [cut]) fun ⟨heq, _⟩ => ?_
      have := congrArg List.length heq
      simp at this
      omega
    | cons y t =>
      rw [cut]
      cases before with
      | nil =>
        by_cases hd : x = d ∧ y = d
        · simp [hd, single_singleton]
        · rw [if_neg hd]
          refine iff_of_false (by simp) fun ⟨heq, _⟩ => hd ?_
          simp only [List.nil_append, List.cons.injEq] at heq
          exact ⟨heq.1, heq.2.1⟩
      | cons z before =>
        by_cases hd : x = d ∧ y = d
        · rw [if_pos hd]
          refine iff_of_false (by simp) fun ⟨heq, hs⟩ => hs ?_
          rw [List.cons_append, List.cons.injEq] at heq
          obtain ⟨rfl, heq⟩ := heq
          cases before with
          | nil =>
            rw [List.nil_append, List.cons.injEq] at heq
            exact ⟨[], [], by simp [hd.1]⟩
          | cons w before =>
            rw [List.cons_append, List.cons.injEq] at heq
            exact ⟨[], before ++ [d], by simp [hd.1, ← heq.1, hd.2]⟩
        · rw [if_neg hd, Option.map_eq_some_iff]
          constructor
          · rintro ⟨⟨b, a⟩, hcut, heq⟩
            obtain ⟨⟨rfl, rfl⟩, rfl⟩ : (x = z ∧ b = before) ∧ a = after := by simpa using heq
            obtain ⟨htext, hs⟩ := ih.1 hcut
            refine ⟨by rw [htext, List.cons_append], ?_⟩
            cases b with
            | nil =>
              rw [List.nil_append, List.cons.injEq] at htext
              exact single_cons_cons.2 ⟨fun hx => hd ⟨hx.1, htext.1⟩, hs⟩
            | cons w b =>
              rw [List.cons_append, List.cons.injEq] at htext
              exact single_cons_cons.2 ⟨fun hx => hd ⟨hx.1, htext.1 ▸ hx.2⟩, hs⟩
          · rintro ⟨heq, hs⟩
            rw [List.cons_append, List.cons.injEq] at heq
            obtain ⟨rfl, heq⟩ := heq
            refine ⟨(before, after), ih.2 ⟨heq, hs.of_infix ?_⟩, rfl⟩
            exact (List.suffix_cons x (before ++ [d])).isInfix

/-- The leftmost two delimiters: the text before them, between them and behind them. -/
def candidate (d : α) (text : List α) : Option (List α × List α × List α) :=
  (cut d text).bind fun p => (cut d p.2).map fun q => (p.1, q.1, q.2)

theorem candidate_eq_some {t before body after : List α} :
    candidate d t = some (before, body, after) ↔ t = before ++ d :: d :: (body ++ d :: d :: after) ∧
      Single d (before ++ [d]) ∧ Single d (body ++ [d]) := by
  rw [candidate, Option.bind_eq_some_iff]
  constructor
  · rintro ⟨⟨b, inner⟩, hcut, hmap⟩
    obtain ⟨⟨w, a⟩, hinner, heq⟩ := Option.map_eq_some_iff.1 hmap
    obtain ⟨rfl, rfl, rfl⟩ : b = before ∧ w = body ∧ a = after := by simpa using heq
    obtain ⟨rfl, hb⟩ := cut_eq_some.1 hcut
    obtain ⟨rfl, hw⟩ := cut_eq_some.1 hinner
    exact ⟨rfl, hb, hw⟩
  · rintro ⟨rfl, hb, hw⟩
    exact ⟨_, cut_eq_some.2 ⟨rfl, hb⟩, by rw [cut_eq_some.2 ⟨rfl, hw⟩]; rfl⟩

/-- Without a candidate there is no doubled delimiter, or nothing closes the leftmost one. -/
theorem candidate_eq_none {t : List α} (h : candidate d t = none) : Single d t ∨
    ∃ before inner, t = before ++ d :: d :: inner ∧ Single d (before ++ [d]) ∧ Single d inner := by
  cases hcut : cut d t with
  | none => exact .inl (cut_eq_none.1 hcut)
  | some p =>
    obtain ⟨htext, hb⟩ := cut_eq_some.1 (show cut d t = some (p.1, p.2) from hcut)
    rw [candidate, hcut, Option.bind_some, Option.map_eq_none_iff] at h
    exact .inr ⟨p.1, p.2, htext, hb, cut_eq_none.1 h⟩

/-! ## The scan -/

/-- What a scan finds: the accepted bodies, each with the text in front of it, and the text behind
the last of them. -/
structure Segments (α : Type _) where
  found : List (List α × List α)
  last : List α
deriving DecidableEq, Repr

omit [DecidableEq α] in
/-- Text put in front of the first segment. -/
def Segments.lead (front : List α) : Segments α → Segments α
  | ⟨[], last⟩ => ⟨[], front ++ last⟩
  | ⟨(gap, body) :: found, last⟩ => ⟨(front ++ gap, body) :: found, last⟩

omit [DecidableEq α] in
/-- A body between its delimiters. -/
def wrap (d : α) (body : List α) : List α := d :: d :: (body ++ [d, d])

omit [DecidableEq α] in
/-- The text made of the segments, each gap and each body mapped. -/
def Segments.render (gap token : List α → List α) (s : Segments α) : List α :=
  s.found.flatMap (fun p => gap p.1 ++ token p.2) ++ gap s.last

omit [DecidableEq α] in
/-- The text outside the bodies and their delimiters. -/
def Segments.gaps (s : Segments α) : List (List α) := s.found.map Prod.fst ++ [s.last]

omit [DecidableEq α] in
theorem Segments.render_congr {s : Segments α} {f f' k k' : List α → List α}
    (hgap : ∀ g ∈ s.gaps, f g = f' g) (htoken : ∀ p ∈ s.found, k p.2 = k' p.2) :
    s.render f k = s.render f' k' := by
  have hlast : f s.last = f' s.last := hgap _ (by simp [gaps])
  rw [render, render, hlast]
  congr 1
  refine List.flatMap_congr fun p hp => ?_
  have hp' : p.1 ∈ s.gaps := List.mem_append_left _ (List.mem_map_of_mem hp)
  rw [hgap p.1 hp', htoken p hp]

/-- The scan, for a bounded number of candidates. -/
def segmentsUpTo (d : α) (accept : List α → Bool) : Nat → List α → Segments α
  | 0, text => ⟨[], text⟩
  | fuel + 1, text =>
    match candidate d text with
    | none => ⟨[], text⟩
    | some (before, body, after) =>
      if accept body then
        let rest := segmentsUpTo d accept fuel after
        ⟨(before, body) :: rest.found, rest.last⟩
      else (segmentsUpTo d accept fuel (d :: d :: after)).lead (before ++ d :: d :: body)

/-- The scan. Each candidate leaves less text than it found. -/
def segments (d : α) (accept : List α → Bool) (text : List α) : Segments α :=
  segmentsUpTo d accept text.length text

private theorem segmentsUpTo_eq {n m : Nat} {t : List α} (hn : t.length ≤ n) (hm : t.length ≤ m) :
    segmentsUpTo d accept n t = segmentsUpTo d accept m t := by
  induction n generalizing m t with
  | zero =>
    obtain rfl := List.length_eq_zero_iff.1 (Nat.le_zero.1 hn)
    cases m <;> rfl
  | succ n ih =>
    cases m with
    | zero =>
      obtain rfl := List.length_eq_zero_iff.1 (Nat.le_zero.1 hm)
      rfl
    | succ m =>
      rw [segmentsUpTo, segmentsUpTo]
      cases hc : candidate d t with
      | none => rfl
      | some p =>
        obtain ⟨before, body, after⟩ := p
        obtain ⟨rfl, -⟩ := candidate_eq_some.1 hc
        simp only [List.length_append, List.length_cons] at hn hm
        have hafter := ih (t := after) (m := m) (by omega) (by omega)
        have hnext := ih (t := d :: d :: after) (m := m) (by simp; omega) (by simp; omega)
        simp only [hafter, hnext]

theorem segments_of_none (h : candidate d t = none) : segments d accept t = ⟨[], t⟩ := by
  rw [segments]
  cases hn : t.length with
  | zero => rfl
  | succ n => rw [segmentsUpTo, h]

private theorem segments_of_some (h : candidate d t = some (before, body, after)) :
    segments d accept t =
      if accept body then
        ⟨(before, body) :: (segments d accept after).found, (segments d accept after).last⟩
      else (segments d accept (d :: d :: after)).lead (before ++ d :: d :: body) := by
  obtain ⟨rfl, -⟩ := candidate_eq_some.1 h
  have hlen : (before ++ d :: d :: (body ++ d :: d :: after)).length =
      (before.length + body.length + after.length + 3) + 1 := by
    simp
    omega
  have hafter : segmentsUpTo d accept (before.length + body.length + after.length + 3) after =
      segmentsUpTo d accept after.length after :=
    segmentsUpTo_eq (by omega) (Nat.le_refl _)
  have hnext : segmentsUpTo d accept (before.length + body.length + after.length + 3)
      (d :: d :: after) = segmentsUpTo d accept (d :: d :: after).length (d :: d :: after) :=
    segmentsUpTo_eq (by simp; omega) (Nat.le_refl _)
  rw [segments, hlen, segmentsUpTo, h]
  simp only [hafter, hnext]
  rfl

theorem segments_of_accept (h : candidate d t = some (before, body, after))
    (ha : accept body = true) : segments d accept t =
      ⟨(before, body) :: (segments d accept after).found, (segments d accept after).last⟩ := by
  rw [segments_of_some h, if_pos ha]

theorem segments_of_reject (h : candidate d t = some (before, body, after))
    (ha : accept body = false) : segments d accept t =
      (segments d accept (d :: d :: after)).lead (before ++ d :: d :: body) := by
  rw [segments_of_some h, if_neg (by simp [ha])]

/-- Induction along the scan. -/
theorem scan_induction {motive : List α → Prop} (accept : List α → Bool)
    (none : ∀ t, candidate d t = none → motive t)
    (taken : ∀ t before body after, candidate d t = some (before, body, after) →
      accept body = true → motive after → motive t)
    (passed : ∀ t before body after, candidate d t = some (before, body, after) →
      accept body = false → motive (d :: d :: after) → motive t) (t : List α) : motive t := by
  induction hn : t.length using Nat.strongRecOn generalizing t with
  | ind n ih =>
    cases hc : candidate d t with
    | none => exact none t hc
    | some p =>
      obtain ⟨before, body, after⟩ := p
      have hlen := congrArg List.length (candidate_eq_some.1 hc).1
      simp only [List.length_append, List.length_cons] at hlen
      cases ha : accept body with
      | true => exact taken t _ _ _ hc ha (ih _ (by omega) after rfl)
      | false => exact passed t _ _ _ hc ha (ih (after.length + 2) (by omega) (d :: d :: after) rfl)

omit [DecidableEq α] in
theorem Segments.render_lead (front : List α) (token : List α → List α) (s : Segments α) :
    (s.lead front).render id token = front ++ s.render id token := by
  obtain ⟨found, last⟩ := s
  cases found with
  | nil => rfl
  | cons p found => simp [Segments.lead, Segments.render]

/-- The segments make up the text. -/
theorem render_segments (d : α) (accept : List α → Bool) (t : List α) :
    (segments d accept t).render id (wrap d) = t := by
  induction t using scan_induction (d := d) accept with
  | none t h => simp [segments_of_none h, Segments.render]
  | taken t before body after h ha ih =>
    obtain ⟨htext, -⟩ := candidate_eq_some.1 h
    rw [Segments.render] at ih
    rw [segments_of_accept h ha, Segments.render, List.flatMap_cons, List.append_assoc, ih, htext]
    simp [wrap]
  | passed t before body after h ha ih =>
    obtain ⟨htext, -⟩ := candidate_eq_some.1 h
    rw [segments_of_reject h ha, Segments.render_lead, ih, htext]
    simp

omit [DecidableEq α] in
theorem Segments.mem_found_lead {front : List α} {s : Segments α} {p : List α × List α}
    (h : p ∈ (s.lead front).found) : ∃ q ∈ s.found, q.2 = p.2 := by
  obtain ⟨found, last⟩ := s
  cases found with
  | nil => cases h
  | cons q found =>
    rcases List.mem_cons.1 h with rfl | h
    · exact ⟨q, List.mem_cons_self, rfl⟩
    · exact ⟨p, List.mem_cons_of_mem _ h, rfl⟩

/-- Only accepted bodies are found. -/
theorem accept_of_mem_found {p : List α × List α} (h : p ∈ (segments d accept t).found) :
    accept p.2 = true := by
  induction t using scan_induction (d := d) accept generalizing p with
  | none t hc =>
    rw [segments_of_none hc] at h
    cases h
  | taken t before body after hc ha ih =>
    rw [segments_of_accept hc ha] at h
    rcases List.mem_cons.1 h with rfl | h
    · exact ha
    · exact ih h
  | passed t before body after hc ha ih =>
    rw [segments_of_reject hc ha] at h
    obtain ⟨q, hq, heq⟩ := Segments.mem_found_lead h
    exact heq ▸ ih hq

/-- What is found stands in the text. -/
theorem wrap_infix_of_mem_found {p : List α × List α} (h : p ∈ (segments d accept t).found) :
    wrap d p.2 <:+: t := by
  obtain ⟨l, r, hsplit⟩ := List.append_of_mem h
  have hrender := render_segments d accept t
  rw [Segments.render, hsplit, List.flatMap_append, List.flatMap_cons] at hrender
  exact ⟨l.flatMap (fun p => id p.1 ++ wrap d p.2) ++ p.1,
    r.flatMap (fun p => id p.1 ++ wrap d p.2) ++ (segments d accept t).last,
    by simpa using hrender⟩

theorem infix_of_mem_gaps {g : List α} (h : g ∈ (segments d accept t).gaps) : g <:+: t := by
  have hrender := render_segments d accept t
  rw [Segments.render] at hrender
  rcases List.mem_append.1 h with h | h
  · obtain ⟨p, hp, rfl⟩ := List.mem_map.1 h
    obtain ⟨l, r, hsplit⟩ := List.append_of_mem hp
    rw [hsplit, List.flatMap_append, List.flatMap_cons] at hrender
    exact ⟨l.flatMap (fun p => id p.1 ++ wrap d p.2), wrap d p.2 ++
      (r.flatMap (fun p => id p.1 ++ wrap d p.2) ++ (segments d accept t).last),
      by simpa using hrender⟩
  · rw [List.mem_singleton.1 h]
    exact ⟨_, [], by rw [List.append_nil]; exact hrender⟩

/-- A text that holds no accepted token is one gap. -/
theorem segments_eq_last (h : ∀ w, accept w = true → ¬ wrap d w <:+: t) :
    segments d accept t = ⟨[], t⟩ := by
  have hfound : (segments d accept t).found = [] := by
    by_contra hne
    obtain ⟨p, hp⟩ := List.exists_mem_of_ne_nil _ hne
    exact h p.2 (accept_of_mem_found hp) (wrap_infix_of_mem_found hp)
  have hrender := render_segments d accept t
  rw [Segments.render, hfound] at hrender
  generalize segments d accept t = s at hfound hrender
  obtain ⟨found, last⟩ := s
  simp_all

omit [DecidableEq α] in
/-- The text in front of a token leaves the token to the scan: half a delimiter would shift the
opening, and an open accepted body would take the opening for its own end. -/
structure Clears (d : α) (accept : List α → Bool) (u : List α) : Prop where
  half : ¬ [d] <:+ u
  body : ∀ w, accept w = true → ¬ d :: d :: w <:+ u

omit [DecidableEq α] in
theorem Clears.of_suffix (h : Clears d accept u) (hv : v <:+ u) : Clears d accept v where
  half := fun hs => h.half (hs.trans hv)
  body := fun w hw hs => h.body w hw (hs.trans hv)

omit [DecidableEq α] in
/-- Segments that follow other segments, a token between them. -/
def Segments.join (s : Segments α) (body : List α) (s' : Segments α) : Segments α :=
  ⟨s.found ++ (s.last, body) :: s'.found, s'.last⟩

omit [DecidableEq α] in
theorem Segments.lead_join (front : List α) (s : Segments α) (body : List α) (s' : Segments α) :
    (s.join body s').lead front = (s.lead front).join body s' := by
  obtain ⟨found, last⟩ := s
  cases found <;> rfl

omit [DecidableEq α] in
theorem Segments.render_join (gap token : List α → List α) (s : Segments α) (body : List α)
    (s' : Segments α) : (s.join body s').render gap token =
      s.render gap token ++ token body ++ s'.render gap token := by
  simp [Segments.join, Segments.render]

/-- An accepted token is found behind any text that clears it, and the text on either side is
scanned as if it stood alone. -/
theorem segments_append (hu : Clears d accept u) (hw : accept w = true) (hd : d ∉ w)
    (rest : List α) : segments d accept (u ++ wrap d w ++ rest) =
      (segments d accept u).join w (segments d accept rest) := by
  have hwrap : ∀ v : List α, v ++ wrap d w ++ rest = v ++ d :: d :: (w ++ d :: d :: rest) := by
    simp [wrap]
  have hbody : Single d (w ++ [d]) := by
    refine (single_of_not_mem hd).concat ?_
    rintro ⟨v, rfl⟩
    exact hd (by simp)
  -- A front without a delimiter: the token itself is the leftmost candidate.
  have hsingle : ∀ v, Clears d accept v → Single d v → segments d accept (v ++ wrap d w ++ rest) =
      (Segments.mk [] v).join w (segments d accept rest) := by
    intro v hv hs
    rw [hwrap, segments_of_accept (candidate_eq_some.2 ⟨rfl, hs.concat hv.half, hbody⟩) hw]
    rfl
  induction u using scan_induction (d := d) accept with
  | none u hc =>
    rw [segments_of_none hc]
    rcases candidate_eq_none hc with hs | ⟨before, inner, rfl, hb, hi⟩
    · exact hsingle u hu hs
    · -- The open delimiter is paired with the token's own, and the pair is rejected.
      have hhalf : ¬ [d] <:+ inner := fun hs =>
        hu.half (hs.trans ⟨before ++ [d, d], by simp⟩)
      have hrej : accept inner = false := by
        by_contra ha
        exact hu.body inner (by simpa using ha) (List.suffix_append before _)
      have hcand : candidate d ((before ++ d :: d :: inner) ++ wrap d w ++ rest) =
          some (before, inner, w ++ d :: d :: rest) :=
        candidate_eq_some.2 ⟨by simp [wrap], hb, hi.concat hhalf⟩
      have hnil : Clears d accept [] :=
        ⟨by simp, fun v _ hv => by simpa using List.suffix_nil.1 hv⟩
      have htoken := hsingle [] hnil (single_of_not_mem List.not_mem_nil)
      rw [hwrap, List.nil_append] at htoken
      rw [segments_of_reject hcand hrej, htoken]
      simp [Segments.join, Segments.lead]
  | taken u before body after hc ha ih =>
    obtain ⟨rfl, hb, hi⟩ := candidate_eq_some.1 hc
    have hcand : candidate d ((before ++ d :: d :: (body ++ d :: d :: after)) ++ wrap d w ++ rest) =
        some (before, body, after ++ wrap d w ++ rest) :=
      candidate_eq_some.2 ⟨by simp, hb, hi⟩
    have hsuffix : after <:+ before ++ d :: d :: (body ++ d :: d :: after) :=
      ⟨before ++ d :: d :: (body ++ [d, d]), by simp⟩
    rw [segments_of_accept hcand ha, segments_of_accept hc ha, ih (hu.of_suffix hsuffix)]
    rfl
  | passed u before body after hc ha ih =>
    obtain ⟨rfl, hb, hi⟩ := candidate_eq_some.1 hc
    have hcand : candidate d ((before ++ d :: d :: (body ++ d :: d :: after)) ++ wrap d w ++ rest) =
        some (before, body, after ++ wrap d w ++ rest) :=
      candidate_eq_some.2 ⟨by simp, hb, hi⟩
    have hsuffix : d :: d :: after <:+ before ++ d :: d :: (body ++ d :: d :: after) :=
      ⟨before ++ d :: d :: body, by simp⟩
    have ih := ih (hu.of_suffix hsuffix)
    rw [List.cons_append, List.cons_append, List.cons_append, List.cons_append] at ih
    rw [segments_of_reject hcand ha, segments_of_reject hc ha, ih, Segments.lead_join]

end Delimited
