import Covenant.Source.Lexer
import Mathlib.Data.List.Infix

/-!
What stands between tokens. The characters that are skipped in front of a token are blanks and
comments, and nothing is skipped where a token starts.
-/

namespace Covenant

namespace Span

def slice (span : Span) (chars : List Char) : List Char :=
  (chars.drop span.start).take (span.stop - span.start)

def Covers (span : Span) (offset : Nat) : Prop := span.start ≤ offset ∧ offset < span.stop

def Apart (span other : Span) : Prop := span.stop ≤ other.start ∨ other.stop ≤ span.start

end Span

namespace Lexer

/-- Whether a span of a text is a comment. It ends with its line, or with the first mark that closes
it. -/
inductive IsComment (chars : List Char) (span : Span) : Prop
  | line (body : List Char) : '\n' ∉ body → span.slice chars = '/' :: '/' :: (body ++ ['\n']) →
      IsComment chars span
  | last (body : List Char) : '\n' ∉ body → span.slice chars = '/' :: '/' :: body →
      span.stop = chars.length →
      IsComment chars span
  | block (body : List Char) : ¬ ['*', '/'] <:+: body → span.slice chars = '/' :: '*' ::
      (body ++ ['*', '/']) →
      IsComment chars span

def IsTrivia (chars : List Char) (start stop : Nat) : Prop :=
  ∀ offset, start ≤ offset → offset < stop →
    (∃ char, chars[offset]? = some char ∧ isBlank char) ∨
      ∃ comment : Span, IsComment chars comment ∧ comment.Covers offset ∧ start ≤ comment.start ∧
      comment.stop ≤ stop

theorem isTrivia_refl (chars : List Char) (offset : Nat) : IsTrivia chars offset offset := by
  intro other lower upper
  omega

theorem IsTrivia.append {chars : List Char} {start middle stop : Nat}
    (first : IsTrivia chars start middle) (second : IsTrivia chars middle stop)
    (ordered : start ≤ middle) (further : middle ≤ stop) :
    IsTrivia chars start stop := by
  intro offset lower upper
  by_cases early : offset < middle
  · obtain blank | ⟨comment, found, covers, after, before⟩ := first offset lower early
    · exact .inl blank
    · exact .inr ⟨comment, found, covers, after, by omega⟩
  · obtain blank | ⟨comment, found, covers, after, before⟩ := second offset (by omega) upper
    · exact .inl blank
    · exact .inr ⟨comment, found, covers, by omega, before⟩

theorem isTrivia_of_blank {chars : List Char} {offset : Nat} {char : Char}
    (found : chars[offset]? = some char) (blank : isBlank char) :
    IsTrivia chars offset (offset + 1) := by
  intro other lower upper
  obtain rfl : other = offset := by omega
  exact .inl ⟨char, found, blank⟩

theorem isTrivia_of_comment {chars : List Char} {start stop : Nat}
    (comment : IsComment chars ⟨start, stop⟩) :
    IsTrivia chars start stop := by
  intro offset lower upper
  exact .inr ⟨⟨start, stop⟩, comment, ⟨lower, upper⟩, Nat.le_refl _, Nat.le_refl _⟩

theorem afterLine_eq (chars : List Char) :
    ∃ body, '\n' ∉ body ∧
      (chars = body ++ '\n' :: afterLine chars ∨ chars = body ∧ afterLine chars = []) := by
  induction chars with
  | nil => exact ⟨[], by simp, .inr ⟨rfl, rfl⟩⟩
  | cons char rest ih =>
    by_cases ended : char = '\n'
    · exact ⟨[], by simp, .inl (by simp [afterLine, ended])⟩
    · obtain ⟨body, free, split⟩ := ih
      refine ⟨char :: body, ?_, ?_⟩
      · simpa [free] using Ne.symm ended
      · have same : afterLine (char :: rest) = afterLine rest := by simp [afterLine, ended]
        rw [same]
        obtain found | ⟨found, none⟩ := split
        · exact .inl (congrArg (char :: ·) found)
        · exact .inr ⟨congrArg (char :: ·) found, none⟩

theorem afterBlock_eq {chars rest : List Char} (closed : afterBlock? chars = some rest) :
    ∃ body, ¬ ['*', '/'] <:+: body ∧ chars = body ++ '*' :: '/' :: rest := by
  induction chars using afterBlock?.induct with
  | case1 tail =>
    cases closed
    exact ⟨[], by simp, rfl⟩
  | case2 char tail early ih =>
    rw [afterBlock?.eq_2 _ _ early] at closed
    obtain ⟨body, free, split⟩ := ih closed
    refine ⟨char :: body, ?_, congrArg (char :: ·) split⟩
    intro inside
    obtain starts | later := List.infix_cons_iff.mp inside
    · obtain ⟨more, same⟩ := starts
      obtain ⟨first, second⟩ := List.cons.inj same
      rw [split, ← second] at early
      exact early _ first.symm rfl
    · exact free later
  | case3 => cases closed

theorem slice_of_drop {chars read rest : List Char} {start : Nat}
    (here : chars.drop start = read ++ rest) :
    Span.slice ⟨start, start + read.length⟩ chars = read ∧
      chars.drop (start + read.length) = rest := by
  constructor
  · simp [Span.slice, here]
  · rw [← List.drop_drop, here]
    simp

theorem comment_of_after {chars rest next : List Char} {start : Nat}
    (here : chars.drop start = rest) (found : afterComment? rest = some next) :
    ∃ width, IsComment chars ⟨start, start + width⟩ ∧ chars.drop (start + width) = next ∧
      rest.length = width + next.length := by
  have measured {read : List Char} (split : chars.drop start = read ++ next) :
      rest.length = read.length + next.length := by
    rw [← here, split, List.length_append]
  unfold afterComment? at found
  split at found
  · rename_i tail
    cases found
    obtain ⟨body, free, ended | ⟨whole, none⟩⟩ := afterLine_eq tail
    · have split : chars.drop start = '/' :: '/' :: (body ++ ['\n']) ++ afterLine tail := by
        simpa [here] using ended
      obtain ⟨covered, behind⟩ := slice_of_drop split
      exact ⟨_, .line body free covered, behind, measured split⟩
    · have split : chars.drop start = '/' :: '/' :: body ++ afterLine tail := by
        simpa [here, none] using whole
      obtain ⟨covered, behind⟩ := slice_of_drop split
      refine ⟨_, .last body free covered ?_, behind, measured split⟩
      have left := congrArg List.length split
      simp only [none, List.length_drop, List.append_nil, List.length_cons] at left ⊢
      omega
  · rename_i tail
    obtain ⟨body, free, ended⟩ := afterBlock_eq found
    have split : chars.drop start = '/' :: '*' :: (body ++ ['*', '/']) ++ next := by
      simpa [here] using ended
    obtain ⟨covered, behind⟩ := slice_of_drop split
    exact ⟨_, .block body free covered, behind, measured split⟩
  · cases found

theorem afterTrivia_of_blank {char : Char} (blank : isBlank char) (rest : List Char) :
    afterTrivia (char :: rest) = afterTrivia rest := by
  rw [afterTrivia, if_pos blank]

theorem afterTrivia_of_comment {char : Char} {rest next : List Char}
    (visible : ¬ isBlank char = true) (found : afterComment? (char :: rest) = some next) :
    afterTrivia (char :: rest) = afterTrivia next := by
  rw [afterTrivia, if_neg visible]
  split
  · rename_i other same
    rw [Option.some.inj (same.symm.trans found)]
  · rename_i none
    rw [found] at none
    cases none

theorem afterTrivia_of_solid {char : Char} {rest : List Char} (visible : ¬ isBlank char = true)
    (none : afterComment? (char :: rest) = none) : afterTrivia (char :: rest) = char :: rest := by
  rw [afterTrivia, if_neg visible]
  split
  · rename_i other same
    rw [none] at same
    cases same
  · rfl

/-- What is skipped before a token is trivia. -/
theorem isTrivia_of_afterTrivia {chars rest : List Char} {start : Nat}
    (here : chars.drop start = rest) :
    ∃ width, IsTrivia chars start (start + width) ∧ chars.drop (start + width) = afterTrivia rest ∧
      rest.length = width + (afterTrivia rest).length := by
  induction rest using afterTrivia.induct generalizing start with
  | case1 =>
    exact ⟨0, isTrivia_refl chars start, by simpa [afterTrivia] using here, by simp [afterTrivia]⟩
  | case2 char rest blank ih =>
    have first : chars[start]? = some char := by
      rw [← List.head?_drop, here]
      rfl
    have behind : chars.drop (start + 1) = rest := by
      rw [← List.drop_drop, here]
      rfl
    obtain ⟨width, trivia, reached, measured⟩ := ih behind
    rw [afterTrivia_of_blank blank]
    refine ⟨1 + width, ?_, by rwa [← Nat.add_assoc], by simp only [List.length_cons]; omega⟩
    rw [← Nat.add_assoc]
    exact (isTrivia_of_blank first blank).append trivia (by omega) (by omega)
  | case3 char rest visible next found ih =>
    obtain ⟨passed, comment, behind, commented⟩ := comment_of_after here found
    obtain ⟨width, trivia, reached, measured⟩ := ih behind
    rw [afterTrivia_of_comment visible found]
    refine ⟨passed + width, ?_, by rwa [← Nat.add_assoc], by omega⟩
    rw [← Nat.add_assoc]
    exact (isTrivia_of_comment comment).append trivia (by omega) (by omega)
  | case4 char rest visible none =>
    rw [afterTrivia_of_solid visible none]
    exact ⟨0, isTrivia_refl chars start, here, by omega⟩

end Lexer

end Covenant
