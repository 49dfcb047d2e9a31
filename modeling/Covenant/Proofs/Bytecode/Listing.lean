import Covenant.Bytecode.Assembly
import Covenant.Proofs.Bytecode.Canonical
import Covenant.Proofs.Failure
import Mathlib.Data.List.TakeWhile

/-!
The text form of programs gives them back: what a program is listed as assembles to the program.
-/

namespace Covenant

namespace Bytecode

/-! Words. -/

def IsWord (chars : List Char) : Prop :=
  chars ≠ [] ∧ ∀ char ∈ chars, isBlank char = false ∧ char ≠ ';' ∧ char ≠ '#' ∧ char ≠ ':'

instance (chars : List Char) : Decidable (IsWord chars) :=
  @instDecidableAnd _ _ inferInstance (List.decidableBAll _ chars)

theorem isBlank_of_isDigit {char : Char} (digit : char.isDigit = true) : isBlank char = false := by
  have bounds : 48 ≤ char.toNat ∧ char.toNat ≤ 57 := by
    simpa [Char.isDigit, UInt32.le_iff_toNat_le] using digit
  simp only [isBlank, blankRanges, List.any_cons, List.any_nil, Bool.or_false, Bool.or_eq_false_iff,
    Bool.and_eq_false_iff, decide_eq_false_iff_not]
  omega

theorem isWord_toDigits (value : Nat) : IsWord (Nat.toDigits 10 value) := by
  refine ⟨Nat.toDigits_ne_nil, ?_⟩
  intro char member
  have digit := Nat.isDigit_of_mem_toDigits (by decide) (by decide) member
  refine ⟨isBlank_of_isDigit digit, ?_, ?_, ?_⟩ <;>
  · rintro rfl
    exact absurd digit (by decide)

theorem IsWord.cons {chars : List Char} (word : IsWord chars) (char : Char)
    (single : IsWord [char]) :
    IsWord (char :: chars) :=
  ⟨by simp, List.forall_mem_cons.mpr ⟨single.2 char (by simp), word.2⟩⟩

namespace Assembly

theorem splitWords_append {word : List Char} (plain : ∀ char ∈ word, isBlank char = false)
    (held rest : List Char) :
    splitWords held (word ++ rest) = splitWords (word.reverse ++ held) rest := by
  induction word generalizing held with
  | nil => rfl
  | cons char word ih =>
    have first : isBlank char = false := plain char (by simp)
    have others : ∀ char ∈ word, isBlank char = false := fun char member =>
      plain char (List.mem_cons_of_mem _ member)
    simp [splitWords, first, ih others]

theorem splitWords_word {word : List Char} (isWord : IsWord word) :
    splitWords [] word = [word] := by
  have split := splitWords_append (fun char member => (isWord.2 char member).1) [] []
  rw [List.append_nil, List.append_nil] at split
  rw [split]
  simp [splitWords, isWord.1]

theorem splitWords_pair {first second : List Char} (isFirst : IsWord first)
    (isSecond : IsWord second) :
    splitWords [] (first ++ ' ' :: second) = [first, second] := by
  have blank : isBlank ' ' = true := by decide
  rw [splitWords_append fun char member => (isFirst.2 char member).1]
  simp [splitWords, blank, isFirst.1, splitWords_word isSecond]

/-! Numbers. -/

theorem digits?_of_isDigit {chars : List Char} (digits : ∀ char ∈ chars, char.isDigit = true)
    (start : Nat) :
    (chars.foldlM (fun total char => (digit? 10 char).map fun digit => total * 10 + digit) start :
      Option Nat) =
      some (Nat.ofDigitChars 10 chars start) := by
  induction chars generalizing start with
  | nil => rfl
  | cons char rest ih =>
    have digit : char.isDigit = true := digits char (by simp)
    have bounds : 48 ≤ char.toNat ∧ char.toNat ≤ 57 := by
      simpa [Char.isDigit, UInt32.le_iff_toNat_le] using digit
    have small : char.toNat - 48 < 10 := by omega
    have value : digit? 10 char = some (char.toNat - 48) := by simp [digit?, digit, small]
    have others := ih (fun char member => digits char (List.mem_cons_of_mem _ member))
    simp only [List.foldlM_cons, value, Option.map_some, Option.bind_eq_bind,
      Option.bind_some, others]
    simp [Nat.ofDigitChars, Nat.mul_comm]

theorem digits?_toDigits (value : Nat) : digits? 10 (Nat.toDigits 10 value) = some value := by
  have digits : ∀ char ∈ Nat.toDigits 10 value, char.isDigit = true :=
    fun char member => Nat.isDigit_of_mem_toDigits (by decide) (by decide) member
  simp only [digits?, List.isEmpty_iff, Nat.toDigits_ne_nil, if_false, digits?_of_isDigit digits,
    Nat.ofDigitChars_ten_toDigits]

theorem number_toDigits {value : Nat} (small : value < Nat.pow 2 64) (line : Nat) :
    number line (some (Nat.toDigits 10 value)) = .ok value := by
  have digits : ∀ char ∈ Nat.toDigits 10 value, char.isDigit = true :=
    fun char member => Nat.isDigit_of_mem_toDigits (by decide) (by decide) member
  have found := digits?_toDigits value
  have plain : unsigned? 10 (Nat.pow 2 64) (Nat.toDigits 10 value) = some value := by
    generalize Nat.toDigits 10 value = chars at digits found
    unfold unsigned?
    split
    · exact absurd (digits '+' (by simp)) (by decide)
    · simp [found, small]
  generalize Nat.toDigits 10 value = chars at digits plain
  simp only [number]
  split
  · rename_i same
    split at same
    · exact absurd (digits 'x' (by simp)) (by decide)
    · rw [plain, Option.some.injEq] at same
      rw [same]
  · rename_i same
    split at same
    · exact absurd (digits 'x' (by simp)) (by decide)
    · simp [plain] at same

end Assembly

/-! Operations. -/

namespace Op

theorem isWord_mnemonic (op : Op) : IsWord op.mnemonic.toList := by
  cases op with
  | binary op => cases op <;> decide
  | unary op => cases op <;> decide
  | push value width => cases width <;> simp only [mnemonic] <;> decide
  | load slot wide => cases wide <;> simp only [mnemonic] <;> decide
  | store slot wide => cases wide <;> simp only [mnemonic] <;> decide
  | _ => simp only [mnemonic]; decide

theorem upper_mnemonic (op : Op) :
    String.ofList (op.mnemonic.toList.map Char.toUpper) = op.mnemonic := by
  cases op with
  | binary op => cases op <;> decide
  | unary op => cases op <;> decide
  | push value width => cases width <;> simp only [mnemonic] <;> decide
  | load slot wide => cases wide <;> simp only [mnemonic] <;> decide
  | store slot wide => cases wide <;> simp only [mnemonic] <;> decide
  | _ => simp only [mnemonic]; decide

theorem isWord_operand {op : Op} {operand : String} (has : op.operandText? = some operand) :
    IsWord operand.toList := by
  have number (value : Nat) : IsWord (toString value).toList := by
    simpa only [Nat.toString_eq_repr, Nat.toList_repr] using isWord_toDigits value
  have label (value : Nat) : IsWord ("L" ++ toString value).toList := by
    rw [String.toList_append]
    exact (number value).cons 'L' (by decide)
  cases op <;> simp only [operandText?, Option.some.injEq, reduceCtorEq] at has <;> subst has
  case jump target => exact label target
  case jumpIf target => exact label target
  all_goals exact number _

theorem words_text (op : Op) :
    Assembly.splitWords [] op.text.toList = op.mnemonic.toList ::
      (op.operandText?.map String.toList).toList := by
  cases has : op.operandText? with
  | none => simpa [text, has] using Assembly.splitWords_word op.isWord_mnemonic
  | some operand =>
    simpa [text, has] using Assembly.splitWords_pair op.isWord_mnemonic (isWord_operand has)

theorem plain?_mnemonic (op : Op) :
    Assembly.plain? op.mnemonic = if op.operandText?.isNone then some op else none := by
  cases op with
  | binary op => cases op <;> rfl
  | unary op => cases op <;> rfl
  | push value width => cases width <;> rfl
  | load slot wide => cases wide <;> rfl
  | store slot wide => cases wide <;> rfl
  | _ => rfl

end Op

namespace Assembly

theorem make_numberBelow {value bound : Nat} (small : value < bound) (word : bound ≤ Nat.pow 2 64)
    (line : Nat) (what : String) {make : Nat → Op} {op : Op} (made : make value = op) :
    (do return make (← numberBelow bound line what (some (toString value).toList))) =
      (.ok op : Except Error Op) := by
  have found := number_toDigits (Nat.lt_of_lt_of_le small word) line
  simp [numberBelow, found, small, made, bind, Except.bind, pure, Except.pure]

theorem pushOf_toString {value : UInt64} {width : Width} (fits : width.fits value = true)
    (line : Nat) :
    pushOf line width (some (toString value.toNat).toList) = .ok (.push value width) := by
  have found := number_toDigits value.toNat_lt line
  have small : value.toNat < 256 ^ width.bytes := by simpa [Width.fits] using fits
  simp [pushOf, found, small, bind, Except.bind, pure, Except.pure]

theorem targetOf_label {labels : List (String × Nat)} {target : Nat}
    (placed : labels.lookup ("L" ++ toString target) = some target) (line : Nat) :
    targetOf line labels (some ("L" ++ toString target).toList) = .ok target := by
  simp only [targetOf, String.ofList_toList, placed]

theorem withOperand_text {op : Op} (fits : op.fits = true) {labels : List (String × Nat)}
    (placed : ∀ target, op.target? = some target → labels.lookup ("L" ++ toString target) =
      some target)
    (line : Nat) {operand : String} (has : op.operandText? = some operand) :
    withOperand line labels (some operand.toList) op.mnemonic = .ok op := by
  cases op <;> simp only [Op.operandText?, Option.some.injEq, reduceCtorEq] at has <;> subst has
  case push value width =>
    have pushed := pushOf_toString fits line
    cases width <;> exact pushed
  case load slot wide =>
    cases wide with
    | true => exact make_numberBelow slot.toNat_lt (by decide) line _ (by rw [UInt32.ofNat_toNat])
    | false =>
      have narrow : slot.toNat < 256 := by simpa [Op.fits, Op.isNarrowSlot] using fits
      exact make_numberBelow narrow (by decide) line _ (by rw [UInt32.ofNat_toNat])
  case store slot wide =>
    cases wide with
    | true => exact make_numberBelow slot.toNat_lt (by decide) line _ (by rw [UInt32.ofNat_toNat])
    | false =>
      have narrow : slot.toNat < 256 := by simpa [Op.fits, Op.isNarrowSlot] using fits
      exact make_numberBelow narrow (by decide) line _ (by rw [UInt32.ofNat_toNat])
  case arg index =>
    exact make_numberBelow index.toNat_lt (by decide) line _ (by rw [UInt8.ofNat_toNat])
  case emit topic =>
    exact make_numberBelow topic.toNat_lt (by decide) line _ (by rw [UInt8.ofNat_toNat])
  case jump target =>
    have aimed := targetOf_label (placed target rfl) line
    simp only [Op.mnemonic, withOperand, aimed]
    rfl
  case jumpIf target =>
    have aimed := targetOf_label (placed target rfl) line
    simp only [Op.mnemonic, withOperand, aimed]
    rfl

theorem operation_text {op : Op} (fits : op.fits = true) {labels : List (String × Nat)}
    (placed : ∀ target, op.target? = some target → labels.lookup ("L" ++ toString target) =
      some target)
    (line : Nat) :
    operation labels line op.text.toList = .ok op := by
  simp only [operation, op.words_text]
  cases has : op.operandText? with
  | none => simp [op.upper_mnemonic, op.plain?_mnemonic, has]
  | some operand =>
    simpa [op.upper_mnemonic, op.plain?_mnemonic, has] using withOperand_text fits placed line has

end Assembly

/-! Lines. -/

structure IsCode (chars : List Char) : Prop where
  first : ∃ char rest, chars = char :: rest ∧ isBlank char = false
  last : ∃ rest char, chars = rest ++ [char] ∧ isBlank char = false
  plain : ∀ char ∈ chars, char ≠ ';' ∧ char ≠ '#' ∧ char ≠ '\n'

theorem IsWord.isCode {chars : List Char} (word : IsWord chars) : IsCode chars where
  first := by
    obtain ⟨char, rest, rfl⟩ := List.exists_cons_of_ne_nil word.1
    exact ⟨char, rest, rfl, (word.2 char (by simp)).1⟩
  last := by
    obtain ⟨rest, char, rfl⟩ := (List.eq_nil_or_concat chars).resolve_left word.1
    refine ⟨rest, char, List.concat_eq_append, (word.2 char (by simp)).1⟩
  plain := by
    intro char member
    obtain ⟨unblank, first, second, _⟩ := word.2 char member
    refine ⟨first, second, ?_⟩
    rintro rfl
    exact absurd unblank (by decide)

theorem IsCode.append {left right : List Char} (first : IsCode left) (second : IsCode right)
    (between : List Char) (plain : ∀ char ∈ between, char ≠ ';' ∧ char ≠ '#' ∧ char ≠ '\n') :
    IsCode (left ++ between ++ right) where
  first := by
    obtain ⟨char, rest, rfl, unblank⟩ := first.first
    exact ⟨char, rest ++ between ++ right, by simp, unblank⟩
  last := by
    obtain ⟨rest, char, rfl, unblank⟩ := second.last
    exact ⟨left ++ between ++ rest, char, by simp, unblank⟩
  plain := by
    intro char member
    rcases List.mem_append.mp member with early | late
    · rcases List.mem_append.mp early with early | middle
      · exact first.plain char early
      · exact plain char middle
    · exact second.plain char late

namespace Assembly

theorem splitLines_eq (chars : List Char) : splitLines chars = chars.splitOn '\n' := by
  induction chars with
  | nil => rfl
  | cons char rest ih =>
    rw [splitLines, List.splitOn_cons_eq_if_modifyHead, ih]
    by_cases ends : char = '\n'
    · simp [ends]
    · obtain ⟨first, others, pieces⟩ := List.exists_cons_of_ne_nil (List.splitOn_ne_nil '\n' rest)
      simp [ends, pieces]

theorem trim_code {code : List Char} (isCode : IsCode code) (blanks : List Char) 
    (blank : ∀ char ∈ blanks, isBlank char = true) : trim (blanks ++ code) = code := by
  have front : (blanks ++ code).dropWhile isBlank = code := by
    obtain ⟨char, rest, rfl, unblank⟩ := isCode.first
    rw [List.dropWhile_append_of_pos blank, List.dropWhile_cons_of_neg (by simp [unblank])]
  obtain ⟨rest, char, rfl, unblank⟩ := isCode.last
  simp [trim, front, unblank]

theorem takeWhile_code {blanks code : List Char} (isCode : IsCode code)
    (blank : ∀ char ∈ blanks, isBlank char = true) :
    (blanks ++ code).takeWhile (fun char => char != ';' && char != '#') = blanks ++ code := by
  rw [List.takeWhile_eq_self_iff]
  intro char member
  rcases List.mem_append.mp member with early | late
  · have marks : isBlank ';' = false ∧ isBlank '#' = false := by decide
    have unlike := blank char early
    have first : char ≠ ';' := by rintro rfl; simp [marks] at unlike
    have second : char ≠ '#' := by rintro rfl; simp [marks] at unlike
    simp [first, second]
  · obtain ⟨first, second, _⟩ := isCode.plain char late
    simp [first, second]

end Assembly

namespace Op

theorem isCode_text (op : Op) : IsCode op.text.toList := by
  cases has : op.operandText? with
  | none => simpa [text, has] using op.isWord_mnemonic.isCode
  | some operand =>
    have joined := op.isWord_mnemonic.isCode.append (isWord_operand has).isCode [' '] (by simp)
    simpa [text, has] using joined

theorem label?_text (op : Op) : Assembly.label? op.text.toList = none := by
  have free : ':' ∉ op.text.toList := by
    intro member
    have word := fun char member => (op.isWord_mnemonic.2 char member).2.2.2
    cases has : op.operandText? with
    | none =>
      exact word ':' (by simpa [text, has] using member) rfl
    | some operand =>
      simp only [text, has, String.toList_append, List.append_assoc, List.mem_append] at member
      rcases member with early | blank | late
      · exact word ':' early rfl
      · exact absurd blank (by decide)
      · exact ((isWord_operand has).2 ':' late).2.2.2 rfl
  have other : op.text.toList.getLast? ≠ some ':' := fun last => free (List.mem_of_getLast? last)
  simp [Assembly.label?, other]

end Op

namespace Program

def marks (program : Program) (op : Op) (index : Nat) : Bool :=
  op == .jumpDest && (program.ops.filterMap Op.target?).contains index

def codeAt (program : Program) (op : Op) (index : Nat) : List Char :=
  if program.marks op index then ("L" ++ toString index).toList ++ [':'] else op.text.toList

theorem isWord_label (index : Nat) : IsWord ("L" ++ toString index).toList := by
  simpa using (isWord_toDigits index).cons 'L' (by decide)

theorem isCode_codeAt (program : Program) (op : Op) (index : Nat) :
    IsCode (program.codeAt op index) := by
  have colon : IsCode [':'] :=
    ⟨⟨':', [], rfl, by decide⟩, ⟨[], ':', rfl, by decide⟩, by simp⟩
  have label := (isWord_label index).isCode.append colon [] (by simp)
  rw [List.append_nil] at label
  unfold codeAt
  split
  · exact label
  · exact op.isCode_text

def blanksAt (program : Program) (op : Op) (index : Nat) : List Char :=
  if program.marks op index then [] else [' ', ' ', ' ', ' ']

theorem isBlank_blanksAt {program : Program} {op : Op} {index : Nat} :
    ∀ char ∈ program.blanksAt op index, isBlank char = true := by
  have blank : isBlank ' ' = true := by decide
  unfold blanksAt
  split <;> simp [blank]

theorem toList_disassemble (program : Program) :
    program.disassemble.toList = ['\n'].intercalate
      (program.ops.zipIdx.map fun (op, index) => program.blanksAt op index ++
        program.codeAt op index) := by
  simp only [disassemble, String.toList_intercalate, List.map_map]
  congr 1
  apply List.map_congr_left
  rintro ⟨op, index⟩ _
  change String.toList (if program.marks op index then _ else _) = _
  by_cases marked : program.marks op index = true
  · simp only [blanksAt, codeAt, marked, if_true, String.toList_append, List.nil_append]
    rfl
  · simp only [blanksAt, codeAt, marked, if_false, String.toList_append, Bool.false_eq_true]
    rfl

theorem codeLines_disassemble (program : Program) :
    Assembly.codeLines program.disassemble =
      program.ops.zipIdx.map fun (op, index) => (index + 1, program.codeAt op index) := by
  by_cases empty : program.ops = []
  · obtain ⟨ops⟩ := program
    subst empty
    rfl
  have lines : Assembly.splitLines program.disassemble.toList =
      program.ops.zipIdx.map fun (op, index) => program.blanksAt op index ++
      program.codeAt op index := by
    rw [Assembly.splitLines_eq, toList_disassemble]
    apply List.splitOn_intercalate
    · intro line member ends
      obtain ⟨⟨op, index⟩, _, rfl⟩ := List.mem_map.mp member
      rcases List.mem_append.mp ends with blank | code
      · simp only [blanksAt] at blank
        split at blank <;> simp at blank
      · exact ((program.isCode_codeAt op index).plain _ code).2.2 rfl
    · simpa using empty
  have code (op : Op) (index : Nat) :
      Assembly.trim ((program.blanksAt op index ++ program.codeAt op index).takeWhile
        fun char => char != ';' && char != '#') = program.codeAt op index := by
    have isCode := program.isCode_codeAt op index
    rw [Assembly.takeWhile_code isCode isBlank_blanksAt,
      Assembly.trim_code isCode _ isBlank_blanksAt]
  rw [Assembly.codeLines, lines, List.filter_eq_self.mpr]
  · apply List.ext_getElem
    · simp
    · intro index first second
      simp [code]
  · intro entry member
    obtain ⟨⟨line, index⟩, listed, rfl⟩ := List.mem_map.mp member
    obtain ⟨⟨op, place⟩, _, rfl⟩ := List.mem_map.mp (List.fst_mem_of_mem_zipIdx listed)
    obtain ⟨char, rest, starts, _⟩ := (program.isCode_codeAt op place).first
    have filled : program.codeAt op place ≠ [] := by simp [starts]
    simp [code, filled]

theorem label?_codeAt (program : Program) (op : Op) (index : Nat) :
    Assembly.label? (program.codeAt op index) =
      if program.marks op index then some ("L" ++ toString index).toList else none := by
  by_cases marked : program.marks op index = true
  · have trimmed := Assembly.trim_code (isWord_label index).isCode [] (by simp)
    rw [List.nil_append] at trimmed
    simp only [codeAt, marked, if_true, Assembly.label?, List.getLast?_concat, beq_self_eq_true,
      List.dropLast_concat, trimmed]
  · simp [codeAt, marked, op.label?_text]

theorem label_injective {first second : Nat}
    (same : "L" ++ toString first = "L" ++ toString second) :
    first = second := by
  have digits : Nat.toDigits 10 first = Nat.toDigits 10 second := by
    simpa using congrArg String.toList same
  calc first = Nat.ofDigitChars 10 (Nat.toDigits 10 first) 0 := Nat.ofDigitChars_ten_toDigits.symm
    _ = Nat.ofDigitChars 10 (Nat.toDigits 10 second) 0 := by rw [digits]
    _ = second := Nat.ofDigitChars_ten_toDigits

/-- Going through the lines from some place on, the labels that are found keep those that are known,
and each one that the listing defines leads to its own place. -/
theorem labelsFrom_listing (program : Program) (ops : List Op) (start : Nat)
    (known : List (String × Nat))
    (fresh : ∀ index, start ≤ index → known.lookup ("L" ++ toString index) = none) :
    ∃ labels, Assembly.labelsFrom start known
        ((ops.zipIdx start).map fun (op, index) => (index + 1, program.codeAt op index)) =
          .ok labels ∧
      (∀ index, index < start → labels.lookup ("L" ++ toString index) = known.lookup
        ("L" ++ toString index)) ∧
      ∀ op index, (op, index) ∈ ops.zipIdx start → program.marks op index = true →
        labels.lookup ("L" ++ toString index) = some index := by
  induction ops generalizing start known with
  | nil => exact ⟨known, rfl, fun _ _ => rfl, by simp⟩
  | cons op rest ih =>
    by_cases marked : program.marks op start = true
    · have name : String.ofList ("L" ++ toString start).toList = "L" ++ toString start :=
        String.ofList_toList
      have other {index : Nat} (apart : index ≠ start) :
          (("L" ++ toString index) == ("L" ++ toString start)) = false := by
        rw [beq_eq_false_iff_ne]
        intro same
        exact apart (label_injective same)
      obtain ⟨labels, found, kept, listed⟩ :=
        ih (start + 1) (("L" ++ toString start, start) :: known) (by
        intro index later
        rw [List.lookup_cons, other (by omega)]
        exact fresh index (by omega))
      refine ⟨labels, ?_, ?_, ?_⟩
      · have word := isWord_label start
        have unblank : ("L" ++ toString start).toList.any isBlank = false := by
          rw [List.any_eq_false]
          intro char member
          simp [(word.2 char member).1]
        have some : ("L" ++ toString start).toList.isEmpty = false := by simp
        rw [List.zipIdx_cons, List.map_cons, Assembly.labelsFrom, label?_codeAt, if_pos marked]
        simp only [name, some, unblank, fresh start (Nat.le_refl _), Bool.or_self,
          Option.isSome_none, Bool.false_eq_true, if_false, found]
      · intro index early
        rw [kept index (by omega), List.lookup_cons, other (by omega)]
      · intro op index member marks
        rw [List.zipIdx_cons, List.mem_cons] at member
        rcases member with here | later
        · obtain ⟨rfl, rfl⟩ := Prod.mk.inj here
          rw [kept index (by omega), List.lookup_cons, beq_self_eq_true]
        · exact listed op index later marks
    · obtain ⟨labels, found, kept, listed⟩ :=
        ih (start + 1) known (fun index later => fresh index (by omega))
      refine ⟨labels, ?_, ?_, ?_⟩
      · rw [List.zipIdx_cons, List.map_cons, Assembly.labelsFrom, label?_codeAt, if_neg marked]
        exact found
      · intro index early
        exact kept index (by omega)
      · intro op index member marks
        rw [List.zipIdx_cons, List.mem_cons] at member
        rcases member with here | later
        · obtain ⟨rfl, rfl⟩ := Prod.mk.inj here
          exact absurd marks marked
        · exact listed op index later marks

theorem operations_listing (program : Program) {labels : List (String × Nat)}
    {entries : List (Op × Nat)} (fits : ∀ entry ∈ entries, entry.1.fits = true)
    (placed : ∀ entry ∈ entries, ∀ target, entry.1.target? = some target →
      labels.lookup ("L" ++ toString target) = some target) :
    Assembly.operations labels
      (entries.map fun (op, index) => (index + 1, program.codeAt op index)) =
      .ok (entries.map Prod.fst) := by
  induction entries with
  | nil => rfl
  | cons entry rest ih =>
    obtain ⟨op, index⟩ := entry
    have others := ih (fun entry member => fits entry (List.mem_cons_of_mem _ member))
      (fun entry member => placed entry (List.mem_cons_of_mem _ member))
    by_cases marked : program.marks op index = true
    · have destination : op = .jumpDest := by
        simp only [marks, Bool.and_eq_true, beq_iff_eq] at marked
        exact marked.1
      simp only [List.map_cons, Assembly.operations, label?_codeAt, marked, if_true,
        Option.isSome_some, others]
      rw [destination]
      rfl
    · have read := Assembly.operation_text (fits _ List.mem_cons_self)
        (placed _ List.mem_cons_self) (index + 1)
      have code : program.codeAt op index = op.text.toList := by simp [codeAt, marked]
      simp only [List.map_cons, Assembly.operations, code, op.label?_text, Option.isSome_none,
        Bool.false_eq_true, if_false, others, read]
      rfl

/-- The text that a program is listed as assembles to the program. -/
theorem assemble_disassemble {program : Program} (fits : ∀ op ∈ program.ops, op.fits = true)
    (valid : program.check = .ok ()) : assemble program.disassemble = .ok program := by
  have lands : program.JumpsLand := by
    rw [← strayJump?_eq_none]
    unfold check at valid
    split at valid
    · simp at valid
    · assumption
  obtain ⟨labels, found, _, listed⟩ := labelsFrom_listing program program.ops 0 [] (fun _ _ => rfl)
  have placed : ∀ entry ∈ program.ops.zipIdx, ∀ target, entry.1.target? = some target →
      labels.lookup ("L" ++ toString target) = some target := by
    rintro ⟨op, index⟩ member target aims
    have there := lands index op target (List.mk_mem_zipIdx_iff_getElem?.mp member) aims
    refine listed .jumpDest target (List.mk_mem_zipIdx_iff_getElem?.mpr there) ?_
    have aimed : target ∈ program.ops.filterMap Op.target? :=
      List.mem_filterMap.mpr ⟨op, List.fst_mem_of_mem_zipIdx member, aims⟩
    simpa [marks] using aimed
  have read := operations_listing program
    (fun entry member => fits entry.1 (List.fst_mem_of_mem_zipIdx member)) placed
  rw [List.zipIdx_map_fst] at read
  rw [assemble, codeLines_disassemble, found]
  simp only [bind, Except.bind, read, valid]
  rfl

end Program

end Bytecode

end Covenant
