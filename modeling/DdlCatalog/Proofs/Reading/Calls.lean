import DdlCatalog.Proofs.Reading.Blanks
import DdlCatalog.Proofs.Reading.Lexing
import Mathlib.Logic.Function.Iterate

/-!
Calls of a lexer. Calls of `next` give tokens, one behind the other with nothing but blanks and complete comments
between them, until the text ends or is refused. A call of `peek` that gives a token leaves it for `next`; one that
is refused is not undone, so that the `next` after it goes on behind the error.
-/

namespace DdlCatalog.Sql

/-- A token between two places of a text: blanks and complete comments, and then at least one character of its own. -/
structure Token.Stands (text : List Char) (place stop : Nat) (t : Token) : Prop where
  gap : Bytes.slice text place t.offset = .ok t.gap
  blank : Blank t.gap
  spelling : Bytes.slice text t.offset stop = .ok t.text
  spelled : t.text ≠ []
  le_offset : place ≤ t.offset
  offset_lt : t.offset < stop

theorem Cursor.next_stands {text : List Char} {a b : Cursor} {t : Token}
    (h : Bytes.Placed text a.offset a.rest) (hnext : a.next = (.ok (some t), b)) :
    t.Stands text a.offset b.offset := by
  obtain ⟨hoffset, hstop⟩ := Cursor.next_offset hnext
  have hne := Cursor.next_text_ne_nil hnext
  have hlength := length_le_byteLength t.text
  have hpos := List.length_pos_iff.2 hne
  have hgap : Bytes.Placed text a.offset (t.gap ++ (t.text ++ b.rest)) := by
    rwa [← List.append_assoc, Cursor.next_append hnext]
  have htext : Bytes.Placed text t.offset (t.text ++ b.rest) := by
    rw [hoffset]
    exact hgap.after
  refine ⟨?_, ?_, ?_, hne, by omega, by omega⟩
  · rw [hoffset]
    exact hgap.slice_eq
  · obtain ⟨before, c, r, l, hbefore, -, -, rfl, -⟩ := next_eq_token_iff.1 hnext
    have hblank : Blank (gap a.rest).1 := blank_gap (by rw [hbefore]; exact List.cons_ne_nil c r)
    rwa [hbefore] at hblank
  · rw [hstop]
    exact htext.slice_eq

namespace Lexer

inductive Call
  | peek
  | next
  deriving DecidableEq

abbrev Answer := Except LexError (Option Token)

def call (l : Lexer) : Call → Answer × Lexer
  | .peek => l.peek
  | .next => l.next

/-- Whether the lexer goes on behind what a call has answered. -/
def passes : Call × Answer → Bool
  | (.next, _) => true
  | (.peek, .ok _) => false
  | (.peek, .error _) => true

/-- The lexer after some calls of `next` alone. -/
def after (l : Lexer) (k : Nat) : Lexer := (fun l => l.next.2)^[k] l

/-- What `next` answers after so many calls of it. -/
def answer (l : Lexer) (k : Nat) : Answer := (l.after k).next.1

/-- What the first calls of `next` answer, with no other calls between them. -/
def answers (l : Lexer) (n : Nat) : List Answer := (List.range n).map l.answer

variable {l l' : Lexer} {calls : List Call} {text : List Char} {n : Nat} {e : LexError} {t? : Option Token}

/-- So many calls of `next` answer tokens, each of which stands behind the one before it, and the call after them does
not; if it answers that the text ends, only blanks and comments are left, of which the last may be open. The bytes of
the text give the same answers from the same places. -/
structure Reads (text : List Char) (l : Lexer) (n : Nat) : Prop where
  token : ∀ k < n, ∃ t, l.answer k = .ok (some t) ∧ t.Stands text (l.after k).position (l.after (k + 1)).position
  last : ∀ t, l.answer n ≠ .ok (some t)
  left : l.answer n = .ok none →
    ∃ part, Bytes.sliceFrom text (l.after n).position = .ok part ∧ Blank (part ++ ['\n'])
  bytes : ∀ k ≤ n, Bytes.lexAt text (l.after k).position = Bytes.ofNext (l.answer k, (l.after (k + 1)).cursor)

theorem Reads.zero {a : Cursor} (h : Bytes.Placed text a.offset a.rest) (hlast : ∀ t, a.next.1 ≠ .ok (some t)) :
    Reads text ⟨a, none⟩ 0 where
  token := by
    intro k hk
    exact absurd hk k.not_lt_zero
  last := hlast
  left := fun hend => ⟨a.rest, h.sliceFrom_eq, blank_of_end (next_eq_none_iff.1 hend)⟩
  bytes := by
    intro k hk
    obtain rfl := Nat.le_zero.1 hk
    exact Bytes.lexAt_eq h

theorem Reads.succ {a b : Cursor} {t : Token} (h : Bytes.Placed text a.offset a.rest)
    (hnext : a.next = (.ok (some t), b)) (hrest : Reads text ⟨b, none⟩ n) : Reads text ⟨a, none⟩ (n + 1) := by
  have hfirst : Lexer.next ⟨a, none⟩ = (.ok (some t), ⟨b, none⟩) := by
    rw [Lexer.next, hnext]
  have hafter (k : Nat) : Lexer.after ⟨a, none⟩ (k + 1) = Lexer.after ⟨b, none⟩ k :=
    congrArg (fun p => Lexer.after p.2 k) hfirst
  have hanswer (k : Nat) : Lexer.answer ⟨a, none⟩ (k + 1) = Lexer.answer ⟨b, none⟩ k :=
    congrArg (fun l => l.next.1) (hafter k)
  refine ⟨fun k hk => ?_, fun u => ?_, fun hend => ?_, fun k hk => ?_⟩
  · cases k with
    | zero =>
        refine ⟨t, congrArg Prod.fst hfirst, ?_⟩
        rw [hafter]
        exact Cursor.next_stands h hnext
    | succ k =>
        rw [hanswer, hafter, hafter]
        exact hrest.token k (by omega)
  · rw [hanswer]
    exact hrest.last u
  · rw [hanswer] at hend
    rw [hafter]
    exact hrest.left hend
  · cases k with
    | zero => exact Bytes.lexAt_eq h
    | succ k =>
        rw [hanswer, hafter, hafter]
        exact hrest.bytes k (by omega)

end Lexer

end DdlCatalog.Sql
