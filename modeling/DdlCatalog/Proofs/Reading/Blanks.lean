import DdlCatalog.Proofs.Composition.Lexing

/-!
What stands between tokens. The gap before a token is made of blanks and of comments that are complete: a line comment
goes on to a new line, a block comment to the first end of a comment in it.
-/

namespace DdlCatalog.Sql

/-- Blanks and complete comments. A line comment takes the new line that closes it. -/
inductive Blank : List Char → Prop
  | nil : Blank []
  | space {c : Char} {cs : List Char} : isSpace c = true → Blank cs → Blank (c :: cs)
  | dashes {body cs : List Char} : '\n' ∉ body → Blank cs → Blank ('-' :: '-' :: (body ++ '\n' :: cs))
  | hash {body cs : List Char} : '\n' ∉ body → Blank cs → Blank ('#' :: (body ++ '\n' :: cs))
  | block {body cs : List Char} :
      ¬ ['*', '/'] <:+: body → Blank cs → Blank ('/' :: '*' :: (body ++ '*' :: '/' :: cs))

variable {cs rest body item : List Char}

theorem Blank.of_newline (h : Blank ('\n' :: cs)) : Blank cs := by
  generalize hline : '\n' :: cs = line at h
  cases h with
  | nil => cases hline
  | space _ hcs => rwa [(List.cons.inj hline).2]
  | dashes => exact absurd (List.cons.inj hline).1 (by decide)
  | hash => exact absurd (List.cons.inj hline).1 (by decide)
  | block => exact absurd (List.cons.inj hline).1 (by decide)

/-- A block comment ends at the first end there is. -/
theorem blockComment?_body (h : blockComment? cs = some (item, rest)) :
    ∃ body, item = body ++ ['*', '/'] ∧ ¬ ['*', '/'] <:+: body := by
  fun_induction blockComment? cs generalizing item rest with
  | case1 => cases h
  | case2 r => cases h; exact ⟨[], rfl, by simp⟩
  | case3 c r hend ih =>
      obtain ⟨⟨item', rest'⟩, hitem, he⟩ := Option.map_eq_some_iff.1 h
      cases he
      obtain ⟨body, rfl, hbody⟩ := ih hitem
      refine ⟨c :: body, rfl, ?_⟩
      rw [List.infix_cons_iff, not_or]
      refine ⟨fun hstart => ?_, hbody⟩
      obtain ⟨more, hmore⟩ := hstart
      obtain ⟨hc, hbody⟩ := List.cons.inj hmore
      refine hend (more ++ ['*', '/'] ++ rest) hc.symm ?_
      rw [← blockComment?_append hitem, ← hbody]
      rfl

/-- One item of a gap: a blank, a line comment without the new line that closes it, or a block comment. -/
theorem gapItem?_cases (h : gapItem? cs = some (item, rest)) :
    (∃ c, isSpace c = true ∧ item = [c]) ∨
    (∃ body, '\n' ∉ body ∧ (item = '-' :: '-' :: body ∨ item = '#' :: body) ∧ NewLine rest) ∨
    ∃ body, ¬ ['*', '/'] <:+: body ∧ item = '/' :: '*' :: (body ++ ['*', '/']) := by
  have hrun (r : List Char) : '\n' ∉ r.takeWhile (· ≠ '\n') := by
    intro hmem
    have hne := List.all_eq_true.1 (List.all_takeWhile (p := (· ≠ '\n')) (l := r)) _ hmem
    simp at hne
  have hline (r : List Char) : NewLine (r.dropWhile (· ≠ '\n')) := by
    intro c hc
    have hstop := List.head?_dropWhile_not (· ≠ '\n') r
    rw [hc] at hstop
    simpa using hstop
  unfold gapItem? at h
  split at h
  · cases h
    exact .inr (.inl ⟨_, hrun _, .inl rfl, hline _⟩)
  · cases h
    exact .inr (.inl ⟨_, hrun _, .inr rfl, hline _⟩)
  · obtain ⟨⟨item', rest'⟩, hitem, he⟩ := Option.map_eq_some_iff.1 h
    cases he
    obtain ⟨body, rfl, hbody⟩ := blockComment?_body hitem
    exact .inr (.inr ⟨body, hbody, rfl⟩)
  · split at h
    · rename_i hspace
      cases h
      exact .inl ⟨_, hspace, rfl⟩
    · cases h
  · cases h

/-- The gap before a character is made of blanks and complete comments. -/
theorem blank_gap (h : (gap cs).2 ≠ []) : Blank (gap cs).1 := by
  fun_induction gap cs with
  | case1 => exact .nil
  | case2 cs item rest hitem ih =>
      rcases gapItem?_cases hitem with ⟨c, hspace, rfl⟩ | ⟨body, hbody, hopening, hline⟩ | ⟨body, hbody, rfl⟩
      · exact .space hspace (ih h)
      · -- The new line that closes the comment is the next item.
        cases rest with
        | nil => exact absurd (by rw [gap_of_gapItem?_eq_none rfl]) h
        | cons c rest =>
            obtain rfl := hline c rfl
            have hgap := gap_of_gapItem? (gapItem?_space (c := '\n') rfl rest)
            have hblank := ih h
            rw [hgap] at hblank ⊢
            rcases hopening with rfl | rfl
            · exact .dashes hbody hblank.of_newline
            · exact .hash hbody hblank.of_newline
      · have hblank := Blank.block hbody (ih h)
        simpa using hblank

/-- A gap that reaches to the end is one as well, once a new line closes the comment that may be open there. -/
theorem blank_of_end (h : (gap cs).2 = []) : Blank (cs ++ ['\n']) := by
  have hcs : (gap cs).1 = cs := by
    rw [← List.append_nil (gap cs).1, ← h, gap_append]
  have hline : gap ['\n', ';'] = (['\n'], [';']) := gap_space rfl rfl
  have hgap := gap_more_of_end (newLine_cons [';']) h
  rw [hline, hcs] at hgap
  have hblank : Blank (gap (cs ++ ['\n', ';'])).1 := blank_gap (by rw [hgap]; exact List.cons_ne_nil _ _)
  rwa [hgap] at hblank

end DdlCatalog.Sql
