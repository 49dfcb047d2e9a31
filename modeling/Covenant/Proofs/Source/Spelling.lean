import Covenant.Source.Lexer
import Mathlib.Data.List.TakeWhile

/-!
How tokens are spelled. What is read as a token spells it, and a token that can be written is read
back from its text, whatever follows behind a blank.
-/

namespace Covenant

namespace Token

/-- Whether characters spell a token. Separators between the digits of a decimal number do not
count. -/
def SpelledBy (token : Token) (chars : List Char) : Prop :=
  match token with
  | int digits => chars.filter (· != '_') = digits.toList
  | _ => chars = token.text.toList

/-- Whether a token can be written: a name is a word but no keyword, a number has digits, and
neither a quote nor the end of a line stands in a string. -/
def IsWritable : Token → Prop
  | ident name =>
    (∃ first rest, name.toList = first :: rest ∧ Lexer.isWordStart first ∧ ∀ char ∈ rest,
      Lexer.isWordPart char) ∧
      Keyword.ofWord? name = none
  | int digits => digits.toList ≠ [] ∧ ∀ char ∈ digits.toList, char.isDigit
  | hex digits => digits.toList ≠ [] ∧ ∀ char ∈ digits.toList, Lexer.isHexDigit char
  | str text => ∀ char ∈ text.toList, char ≠ '"' ∧ char ≠ '\n'
  | keyword _ => True
  | punct _ => True

end Token

theorem Punct.spelling_of_pair {first second : Char} {mark : Punct}
    (found : ofPair? first second = some mark) :
    mark.spelling.toList = [first, second] := by
  unfold ofPair? at found
  split at found <;> cases found <;> rfl

theorem Punct.spelling_of_char {char : Char} {mark : Punct} (found : ofChar? char = some mark) :
    mark.spelling.toList = [char] := by
  unfold ofChar? at found
  split at found <;> cases found <;> rfl

theorem Keyword.spelling_of_word {text : String} {keyword : Keyword}
    (found : ofWord? text = some keyword) :
    keyword.spelling = text := by
  have same := List.find?_some found
  exact eq_of_beq same

namespace Lexer

variable {test : Char → Bool}

theorem take_takeWhile (rest : List Char) :
    rest.take (rest.takeWhile test).length = rest.takeWhile test :=
  (List.prefix_iff_eq_take.mp (List.takeWhile_prefix test)).symm

theorem length_takeWhile (rest : List Char) : (rest.takeWhile test).length ≤ rest.length :=
  (List.takeWhile_prefix test).length_le

/-! What is read as a token. -/

theorem spelledBy_word (chars : List Char) : (word chars).SpelledBy chars := by
  unfold word
  cases found : Keyword.ofWord? (String.ofList chars) with
  | none => simp [found, Token.SpelledBy, Token.text]
  | some keyword => simp [found, Token.SpelledBy, Token.text, Keyword.spelling_of_word found]

theorem take_of_closed {rest : List Char}
    (closed : (rest.drop (rest.takeWhile test).length).head? = some '"') :
    (rest.takeWhile test).length < rest.length ∧
      rest.take ((rest.takeWhile test).length + 1) = rest.takeWhile test ++ ['"'] := by
  have some := List.head?_drop ▸ closed
  obtain ⟨bound, same⟩ := List.getElem?_eq_some_iff.mp some
  refine ⟨bound, ?_⟩
  rw [List.take_add_one, some, take_takeWhile]
  rfl

/-- A token that is read takes characters, which spell it. -/
theorem token_spelled {chars : List Char} {token : Token} {width : Nat}
    (read : token? chars = some (token, width)) :
    0 < width ∧ width ≤ chars.length ∧ token.SpelledBy (chars.take width) := by
  unfold token? at read
  split at read
  · cases read
  · rename_i rest
    have bound : (rest.takeWhile isHexDigit).length ≤ rest.length := length_takeWhile rest
    dsimp only at read
    split at read <;> cases read
    · exact ⟨by omega, by simp, rfl⟩
    · refine ⟨by omega, by simp only [List.length_cons]; omega, ?_⟩
      rw [Nat.add_comm, List.take_succ_cons, List.take_succ_cons, take_takeWhile]
      simp [Token.SpelledBy, Token.text]
  · rename_i rest
    dsimp only at read
    split at read <;> cases read
    rename_i closed
    obtain ⟨bound, taken⟩ := take_of_closed (eq_of_beq closed)
    refine ⟨by omega, by simp only [List.length_cons]; omega, ?_⟩
    rw [List.take_succ_cons, taken]
    simp [Token.SpelledBy, Token.text]
  · rename_i char rest _ _
    split at read
    · rename_i digit
      cases read
      have bound : (rest.takeWhile fun next => next.isDigit || next == '_').length ≤ rest.length :=
        length_takeWhile rest
      refine ⟨by omega, by simp only [List.length_cons]; omega, ?_⟩
      have kept : (char != '_') = true := by
        have other : char ≠ '_' := by
          rintro rfl
          cases digit
        simpa using other
      rw [Nat.add_comm, List.take_succ_cons, take_takeWhile]
      simp [Token.SpelledBy, kept]
    · split at read
      · cases read
        have bound : (rest.takeWhile isWordPart).length ≤ rest.length := length_takeWhile rest
        refine ⟨by omega, by simp only [List.length_cons]; omega, ?_⟩
        rw [Nat.add_comm, List.take_succ_cons, take_takeWhile]
        exact spelledBy_word _
      · split at read
        · rename_i mark found
          cases read
          obtain ⟨second, next, paired⟩ := Option.bind_eq_some_iff.mp found
          obtain ⟨tail, rfl⟩ := List.head?_eq_some_iff.mp next
          exact ⟨by omega, by simp, (Punct.spelling_of_pair paired).symm⟩
        · obtain ⟨mark, found, same⟩ := Option.map_eq_some_iff.mp read
          cases same
          exact ⟨by omega, by simp, (Punct.spelling_of_char found).symm⟩

/-! What is read where a token is written. -/

def Ends (tail : List Char) : Prop := tail = [] ∨ ∃ rest, tail = ' ' :: rest

theorem takeWhile_of_ends {chars tail : List Char} (all : ∀ char ∈ chars, test char)
    (blank : test ' ' = false) (ends : Ends tail) : (chars ++ tail).takeWhile test = chars := by
  rw [List.takeWhile_append_of_pos all]
  obtain rfl | ⟨rest, rfl⟩ := ends
  · simp
  · simp [blank]

theorem toNat_of_isDigit {char : Char} (digit : char.isDigit) :
    48 ≤ char.toNat ∧ char.toNat ≤ 57 := by
  simp only [Char.isDigit, Bool.and_eq_true, decide_eq_true_eq, ge_iff_le,
    UInt32.le_iff_toNat_le] at digit
  exact digit

theorem toNat_of_isWordStart {char : Char} (start : isWordStart char) :
    65 ≤ char.toNat ∧ char.toNat ≤ 122 := by
  have parts : (decide (65 ≤ char.val ∧ char.val ≤ 90) || (97 ≤ char.val && char.val ≤ 122)) ||
      char == '_' := start
  simp only [Bool.or_eq_true, Bool.and_eq_true, decide_eq_true_eq, beq_iff_eq,
    UInt32.le_iff_toNat_le] at parts
  obtain (⟨lower, upper⟩ | ⟨lower, upper⟩) | rfl := parts
  · change 65 ≤ char.toNat at lower
    change char.toNat ≤ 90 at upper
    omega
  · change 97 ≤ char.toNat at lower
    change char.toNat ≤ 122 at upper
    omega
  · decide

theorem isBlank_of_visible {char : Char} (lower : 33 ≤ char.toNat) (upper : char.toNat ≤ 126) :
    isBlank char = false := by
  simp only [isBlank, blankRanges, List.any_cons, List.any_nil, Bool.or_false, Bool.or_eq_false_iff,
    Bool.and_eq_false_iff, decide_eq_false_iff_not]
  omega

theorem isDigit_of_isWordStart {char : Char} (start : isWordStart char) : char.isDigit = false := by
  cases digit : char.isDigit with
  | false => rfl
  | true =>
    have lower := (toNat_of_isWordStart start).1
    have upper := (toNat_of_isDigit digit).2
    omega

theorem token_word {first : Char} {rest tail : List Char} (start : isWordStart first)
    (parts : ∀ char ∈ rest, isWordPart char) (ends : Ends tail) :
    token? (first :: rest ++ tail) = some (word (first :: rest), (first :: rest).length) := by
  have lower := (toNat_of_isWordStart start).1
  have taken : (rest ++ tail).takeWhile isWordPart = rest := takeWhile_of_ends parts rfl ends
  rw [List.cons_append, token?]
  · simp [isDigit_of_isWordStart start, start, taken, Nat.add_comm]
  · rintro _ rfl
    exact absurd lower (by decide)
  · rintro rfl
    exact absurd lower (by decide)

theorem token_int {digits tail : List Char} (present : digits ≠ [])
    (all : ∀ char ∈ digits, char.isDigit) (ends : Ends tail) :
    token? (digits ++ tail) = some (.int (String.ofList digits), digits.length) := by
  obtain ⟨first, rest, rfl⟩ := List.exists_cons_of_ne_nil present
  have digit := all first List.mem_cons_self
  have others : ∀ char ∈ rest, char.isDigit := fun char member =>
    all char (List.mem_cons_of_mem _ member)
  have taken : (rest ++ tail).takeWhile (fun next => next.isDigit || next == '_') = rest :=
    takeWhile_of_ends (fun char member => by simp [others char member]) rfl ends
  have kept : rest.filter (· != '_') = rest := by
    rw [List.filter_eq_self]
    intro char member
    have upper := (toNat_of_isDigit (others char member)).2
    have other : char ≠ '_' := by
      rintro rfl
      exact absurd upper (by decide)
    simpa using other
  rw [List.cons_append, token?]
  · simp [digit, taken, kept, Nat.add_comm]
  · intro next _ same
    have letter : 'x'.isDigit ∨ 'x' = ' ' := by
      cases rest with
      | nil =>
        obtain rfl | ⟨more, rfl⟩ := ends
        · cases same
        · exact .inr (List.cons.inj same).1.symm
      | cons second rest =>
        have same := (List.cons.inj same).1
        exact .inl (same ▸ others second List.mem_cons_self)
    exact absurd letter (by decide)
  · rintro rfl
    exact absurd digit (by decide)

theorem spelling_isWord (keyword : Keyword) : Keyword.ofWord? keyword.spelling = some keyword ∧
    ∃ first rest, keyword.spelling.toList = first :: rest ∧ isWordStart first ∧ ∀ char ∈ rest,
      isWordPart char := by
  have known : Keyword.ofWord? keyword.spelling = some keyword := by
    cases keyword <;> decide +kernel
  have letters :
      (keyword.spelling.toList.head?.any isWordStart && keyword.spelling.toList.all isWordPart) =
        true := by
    cases keyword <;> decide +kernel
  refine ⟨known, ?_⟩
  cases spelled : keyword.spelling.toList with
  | nil => simp [spelled] at letters
  | cons first rest =>
    simp only [spelled, List.head?_cons, Option.any_some, List.all_cons, Bool.and_eq_true,
      List.all_eq_true] at letters
    exact ⟨first, rest, rfl, letters.1, letters.2.2⟩

theorem token_hex {digits tail : List Char} (present : digits ≠ [])
    (all : ∀ char ∈ digits, isHexDigit char) (ends : Ends tail) :
    token? ('0' :: 'x' :: digits ++ tail) =
      some (.hex (String.ofList digits), digits.length + 2) := by
  have taken : (digits ++ tail).takeWhile isHexDigit = digits := takeWhile_of_ends all rfl ends
  simp [token?, taken, present, Nat.add_comm]

theorem token_str {text : List Char} (tail : List Char)
    (plain : ∀ char ∈ text, char ≠ '"' ∧ char ≠ '\n') :
    token? ('"' :: text ++ '"' :: tail) = some (.str (String.ofList text), text.length + 2) := by
  have taken : (text ++ '"' :: tail).takeWhile (fun char => char != '"' && char != '\n') =
      text := by
    rw [List.takeWhile_append_of_pos]
    · simp
    · intro char member
      simpa using plain char member
  simp [token?, taken]

theorem token_punct (mark : Punct) {tail : List Char} (ends : Ends tail) :
    token? (mark.spelling.toList ++ tail) = some (.punct mark, mark.spelling.toList.length) := by
  obtain rfl | ⟨rest, rfl⟩ := ends
  · cases mark <;> rfl
  · cases mark <;> rfl

/-- A token that can be written is read from its text. -/
theorem token_text {token : Token} (writable : token.IsWritable) {tail : List Char}
    (ends : Ends tail) :
    token? (token.text.toList ++ tail) = some (token, token.text.toList.length) := by
  cases token with
  | ident name =>
    obtain ⟨⟨first, rest, spelled, start, parts⟩, free⟩ := writable
    have same : word (first :: rest) = .ident name := by
      rw [← spelled, word, String.ofList_toList, free]
    simp only [Token.text, spelled]
    rw [token_word start parts ends, same]
  | int digits =>
    have read := token_int writable.1 writable.2 ends
    rwa [String.ofList_toList] at read
  | hex digits =>
    have read := token_hex writable.1 writable.2 ends
    rw [String.ofList_toList] at read
    simpa [Token.text] using read
  | str text =>
    have read := token_str tail writable
    rw [String.ofList_toList] at read
    simpa [Token.text] using read
  | keyword keyword =>
    obtain ⟨known, first, rest, spelled, start, parts⟩ := spelling_isWord keyword
    have same : word (first :: rest) = .keyword keyword := by
      rw [← spelled, word, String.ofList_toList, known]
    simp only [Token.text, spelled]
    rw [token_word start parts ends, same]
  | punct mark => exact token_punct mark ends

/-- A token that is written starts neither with a blank nor with a comment. -/
theorem text_solid {token : Token} (writable : token.IsWritable) {tail : List Char}
    (ends : Ends tail) :
    ∃ first rest, token.text.toList ++ tail = first :: rest ∧ isBlank first = false ∧
      afterComment? (first :: rest) = none := by
  have plain {first : Char} {rest : List Char} (same : token.text.toList = first :: rest)
      (lower : 48 ≤ first.toNat)
      (upper : first.toNat ≤ 126) : ∃ first rest, token.text.toList ++ tail = first :: rest ∧
        isBlank first = false ∧
        afterComment? (first :: rest) = none := by
    refine ⟨first, rest ++ tail, by rw [same]; rfl, isBlank_of_visible (by omega) upper, ?_⟩
    unfold afterComment?
    split
    · rename_i same
      rw [(List.cons.inj same).1] at lower
      exact absurd lower (by decide)
    · rename_i same
      rw [(List.cons.inj same).1] at lower
      exact absurd lower (by decide)
    · rfl
  cases token with
  | ident name =>
    obtain ⟨⟨first, rest, spelled, start, _⟩, _⟩ := writable
    obtain ⟨lower, upper⟩ := toNat_of_isWordStart start
    exact plain spelled (by omega) (by omega)
  | int digits =>
    obtain ⟨first, rest, spelled⟩ := List.exists_cons_of_ne_nil writable.1
    obtain ⟨lower, upper⟩ := toNat_of_isDigit (writable.2 first (by simp [spelled]))
    exact plain spelled (by omega) (by omega)
  | hex digits =>
    have spelled : (Token.hex digits).text.toList = '0' :: 'x' :: digits.toList := by
      simp [Token.text]
    exact plain spelled (by decide) (by decide)
  | str text =>
    refine ⟨'"', text.toList ++ '"' :: tail, by simp [Token.text], by decide, rfl⟩
  | keyword keyword =>
    obtain ⟨_, first, rest, spelled, start, _⟩ := spelling_isWord keyword
    obtain ⟨lower, upper⟩ := toNat_of_isWordStart start
    exact plain spelled (by omega) (by omega)
  | punct mark =>
    obtain rfl | ⟨rest, rfl⟩ := ends
    · cases mark <;> exact ⟨_, _, rfl, by decide, rfl⟩
    · cases mark <;> exact ⟨_, _, rfl, by decide, rfl⟩

end Lexer

end Covenant
