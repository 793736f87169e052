import Mathlib.Data.List.Basic
import Mathlib.Data.List.Infix

/-! Replacing every occurrence of a word in a text, from left to right and without overlaps. The
text and the result are the same chunks with different words between them (`mesh`); a word that
occurs in such a mesh occurs in a chunk or is formed around one of the words between
(`infix_mesh`). -/

namespace Substitute

variable {α : Type _} [DecidableEq α]

/-- `replaceAll`, inside an occurrence of which `skip` symbols are still to be passed. -/
def replaceFrom (needle replacement : List α) : Nat → List α → List α
  | _, [] => []
  | skip + 1, _ :: rest => replaceFrom needle replacement skip rest
  | 0, x :: rest =>
    if needle.isPrefixOf (x :: rest) then
      replacement ++ replaceFrom needle replacement (needle.length - 1) rest
    else x :: replaceFrom needle replacement 0 rest

/-- The text with each occurrence of `needle` replaced. -/
def replaceAll (needle replacement text : List α) : List α := replaceFrom needle replacement 0 text

private theorem replaceFrom_eq_drop (needle replacement : List α) (n : Nat) (t : List α) :
    replaceFrom needle replacement n t = replaceFrom needle replacement 0 (t.drop n) := by
  induction t generalizing n with
  | nil => simp [replaceFrom]
  | cons x t ih =>
    cases n with
    | zero => rfl
    | succ n => rw [replaceFrom, ih, List.drop_succ_cons]

theorem replaceAll_append {needle : List α} (hn : needle ≠ []) (replacement rest : List α) :
    replaceAll needle replacement (needle ++ rest) =
      replacement ++ replaceAll needle replacement rest := by
  obtain ⟨x, needle, rfl⟩ := List.exists_cons_of_ne_nil hn
  have hhead : (x :: needle).isPrefixOf (x :: (needle ++ rest)) = true :=
    List.isPrefixOf_iff_prefix.2 (List.prefix_append (x :: needle) rest)
  rw [replaceAll, List.cons_append, replaceFrom, if_pos hhead, replaceFrom_eq_drop]
  simp [replaceAll]

theorem replaceAll_cons {needle : List α} {x : α} {t : List α} (h : ¬ needle <+: x :: t)
    (replacement : List α) :
    replaceAll needle replacement (x :: t) = x :: replaceAll needle replacement t := by
  rw [replaceAll, replaceFrom, if_neg fun hp => h (List.isPrefixOf_iff_prefix.1 hp)]
  rfl

/-- Chunks with a word in front of each but the first. -/
def mesh : List α → List (List α × List α) → List α
  | chunk, [] => chunk
  | chunk, (word, next) :: rest => chunk ++ word ++ mesh next rest

/-- The chunks between the occurrences that are replaced. -/
theorem replaceAll_eq_mesh {needle : List α} (hn : needle ≠ []) (replacement t : List α) :
    ∃ chunk chunks, t = mesh chunk (chunks.map (needle, ·)) ∧
      replaceAll needle replacement t = mesh chunk (chunks.map (replacement, ·)) ∧
      ∀ c ∈ chunk :: chunks, ¬ needle <:+: c := by
  -- Strong induction: an occurrence leaves the text behind it.
  induction hlen : t.length using Nat.strongRecOn generalizing t with
  | ind n ih =>
    cases t with
    | nil => exact ⟨[], [], rfl, rfl, by simpa using hn⟩
    | cons x t =>
      by_cases hp : needle <+: x :: t
      · obtain ⟨rest, hrest⟩ := hp
        have hpos := List.length_pos_iff.2 hn
        have hlt : rest.length < n := by
          have := congrArg List.length hrest
          simp only [List.length_append] at this
          omega
        obtain ⟨chunk, chunks, htext, hout, hfree⟩ := ih _ hlt rest rfl
        refine ⟨[], chunk :: chunks, ?_, ?_, ?_⟩
        · rw [← hrest, List.map_cons, mesh, ← htext, List.nil_append]
        · rw [← hrest, replaceAll_append hn, hout, List.map_cons, mesh, List.nil_append]
        · intro c hc
          rcases List.mem_cons.1 hc with rfl | hc
          · simpa using hn
          · exact hfree c hc
      · obtain ⟨chunk, chunks, htext, hout, hfree⟩ := ih _ (by simp at hlen; omega) t rfl
        have hmesh : ∀ ws, mesh (x :: chunk) ws = x :: mesh chunk ws := by
          intro ws
          cases ws <;> simp [mesh]
        refine ⟨x :: chunk, chunks, by rw [hmesh, ← htext], ?_, ?_⟩
        · rw [replaceAll_cons hp, hout, hmesh]
        · intro c hc
          rcases List.mem_cons.1 hc with rfl | hc
          · intro hinfix
            rcases List.infix_cons_iff.1 hinfix with hpre | hin
            · refine hp (hpre.trans ((List.prefix_cons_inj x).2 ?_))
              rw [htext]
              cases chunks with
              | nil => exact List.prefix_refl _
              | cons d ds =>
                rw [List.map_cons, mesh, List.append_assoc]
                exact List.prefix_append _ _
            · exact hfree chunk List.mem_cons_self hin
          · exact hfree c (List.mem_cons_of_mem _ hc)

theorem replaceAll_of_not_infix {needle t : List α} (h : ¬ needle <:+: t) (replacement : List α) :
    replaceAll needle replacement t = t := by
  induction t with
  | nil => rfl
  | cons x t ih =>
    rw [List.infix_cons_iff, not_or] at h
    rw [replaceAll_cons h.1, ih h.2]

theorem replaceAll_self {needle : List α} (hn : needle ≠ []) (t : List α) :
    replaceAll needle needle t = t := by
  obtain ⟨chunk, chunks, htext, hout, -⟩ := replaceAll_eq_mesh hn needle t
  rw [hout, ← htext]

omit [DecidableEq α]

/-- Text put around `word` makes an occurrence of `s` that covers a symbol of `word` or, for the
empty word, the place where it stands. -/
def Forms (word s : List α) : Prop := ∃ a b u v, a ++ word ++ b = u ++ s ++ v ∧
  u.length < a.length + word.length ∧ a.length < u.length + s.length

/-- Words that share no symbol form nothing with each other. -/
theorem not_forms_of_disjoint {word s : List α} (hword : word ≠ []) (hs : s ≠ [])
    (h : ∀ x ∈ word, x ∉ s) : ¬ Forms word s := by
  rintro ⟨a, b, u, v, heq, hleft, hright⟩
  have hw := List.length_pos_iff.2 hword
  have hpos := List.length_pos_iff.2 hs
  -- The first position that lies in both occurrences.
  have hget := congrArg (·[max a.length u.length]?) heq
  simp only [List.append_assoc] at hget
  rw [List.getElem?_append_right (by omega), List.getElem?_append_left (by omega),
    List.getElem?_append_right (by omega), List.getElem?_append_left (by omega),
    List.getElem?_eq_getElem (by omega), List.getElem?_eq_getElem (by omega),
    Option.some_inj] at hget
  have hmem : word[max a.length u.length - a.length] ∈ s := hget ▸ List.getElem_mem _
  exact h _ (List.getElem_mem _) hmem

/-- An occurrence in a mesh of words that do not form it is an occurrence in a chunk. -/
theorem infix_mesh {s chunk : List α} {rest : List (List α × List α)}
    (hforms : ∀ p ∈ rest, ¬ Forms p.1 s) (h : s <:+: mesh chunk rest) :
    s <:+: chunk ∨ ∃ p ∈ rest, s <:+: p.2 := by
  induction rest generalizing chunk with
  | nil => exact .inl h
  | cons p rest ih =>
    obtain ⟨word, next⟩ := p
    obtain ⟨u, v, heq⟩ := h
    have hword := hforms (word, next) List.mem_cons_self
    by_cases hleft : u.length < chunk.length + word.length
    · -- The occurrence starts before the end of the word, so it ends before its start.
      have hright : ¬ chunk.length < u.length + s.length := fun hright =>
        hword ⟨chunk, mesh next rest, u, v, heq.symm, hleft, hright⟩
      rw [mesh, List.append_assoc chunk] at heq
      have hpre : u ++ s <+: chunk := List.prefix_of_prefix_length_le ⟨v, heq⟩
        ⟨word ++ mesh next rest, rfl⟩ (by simp; omega)
      exact .inl ((List.suffix_append u s).isInfix.trans hpre.isInfix)
    · rw [mesh, List.append_assoc u s v] at heq
      have hpre : chunk ++ word <+: u := List.prefix_of_prefix_length_le
        ⟨mesh next rest, rfl⟩ ⟨s ++ v, heq⟩ (by simp; omega)
      obtain ⟨u', rfl⟩ := hpre
      rw [List.append_assoc (chunk ++ word)] at heq
      have hnext : s <:+: mesh next rest :=
        ⟨u', v, by rw [List.append_assoc]; exact List.append_cancel_left heq⟩
      rcases ih (fun p hp => hforms p (List.mem_cons_of_mem _ hp)) hnext with hin | ⟨p, hp, hin⟩
      · exact .inr ⟨_, List.mem_cons_self, hin⟩
      · exact .inr ⟨p, List.mem_cons_of_mem _ hp, hin⟩

theorem forms_self {s : List α} (hs : s ≠ []) : Forms s s := by
  have hpos := List.length_pos_iff.2 hs
  exact ⟨[], [], [], [], rfl, by simpa using hpos, by simpa using hpos⟩

theorem mesh_append (chunk : List α) (rest : List (List α × List α)) (word next : List α)
    (rest' : List (List α × List α)) :
    mesh chunk rest ++ word ++ mesh next rest' = mesh chunk (rest ++ (word, next) :: rest') := by
  induction rest generalizing chunk with
  | nil => rfl
  | cons p rest ih =>
    rw [List.cons_append, mesh, mesh, ← ih]
    simp

theorem chunk_infix_mesh {chunk c : List α} {rest : List (List α × List α)}
    (h : c ∈ chunk :: rest.map Prod.snd) : c <:+: mesh chunk rest := by
  induction rest generalizing chunk with
  | nil =>
    rw [List.mem_singleton.1 h]
    exact List.infix_refl chunk
  | cons p rest ih =>
    rw [mesh, List.append_assoc]
    rcases List.mem_cons.1 h with rfl | h
    · exact (List.prefix_append _ _).isInfix
    · exact (ih h).trans ⟨chunk ++ p.1, [], by simp⟩

/-- The ways in which a word takes part in an occurrence: one holds the other, or an end of one is
an end of the other. -/
theorem forms_cases {word s : List α} (h : Forms word s) : s <:+: word ∨ word <:+: s ∨
    (∃ front t back, t ≠ [] ∧ word = front ++ t ∧ s = t ++ back) ∨
    ∃ front t back, t ≠ [] ∧ word = t ++ back ∧ s = front ++ t := by
  obtain ⟨a, b, u, v, heq, hleft, hright⟩ := h
  rw [List.append_assoc, List.append_assoc] at heq
  rcases List.append_eq_append_iff.1 heq with ⟨a', rfl, hword⟩ | ⟨c', rfl, hword⟩
  · rw [List.length_append] at hleft
    rcases List.append_eq_append_iff.1 hword with ⟨b', rfl, -⟩ | ⟨t, rfl, htail⟩
    · rw [List.length_append] at hleft
      omega
    · have hne : t ≠ [] := by
        rintro rfl
        rw [List.append_nil] at hleft
        omega
      rcases List.append_eq_append_iff.1 htail with ⟨v', rfl, -⟩ | ⟨back, rfl, -⟩
      · exact .inl ⟨a', v', by simp⟩
      · exact .inr (.inr (.inl ⟨a', t, back, hne, rfl, rfl⟩))
  · rw [List.length_append] at hright
    rcases List.append_eq_append_iff.1 hword with ⟨b', rfl, -⟩ | ⟨t, rfl, htail⟩
    · rw [List.length_append] at hright
      omega
    · have hne : t ≠ [] := by
        rintro rfl
        rw [List.append_nil] at hright
        omega
      rcases List.append_eq_append_iff.1 htail with ⟨v', rfl, -⟩ | ⟨back, rfl, -⟩
      · exact .inr (.inl ⟨c', v', by simp⟩)
      · exact .inr (.inr (.inr ⟨c', t, back, hne, rfl, rfl⟩))

end Substitute
