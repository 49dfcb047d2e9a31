import Covenant.Completion.Local
import Covenant.Proofs.Source.Locations
import Covenant.Proofs.Source.Prefixes
import Covenant.Proofs.Syntax.Braces

/-!
Completion and the parser agree on where a cursor is. The braces that are open before the cursor are
counted off the tokens that are read there; the parser matches the braces of the whole text.
-/

namespace Covenant

theorem cut_of_append_cons {α : Type} {first rest early late : List α} {item : α}
    (split : first ++ item :: rest = early ++ late) :
    (∃ tail, first = early ++ tail ∧ late = tail ++ item :: rest) ∨
      ∃ tail, early = first ++ item :: tail ∧ rest = tail ++ late := by
  obtain ⟨tail, rfl, left⟩ | ⟨tail, reached, left⟩ := List.append_eq_append_iff.mp split
  · cases tail with
    | nil => exact .inl ⟨[], by simp, left.symm⟩
    | cons last tail =>
      obtain ⟨rfl, rfl⟩ := List.cons_eq_cons.mp left
      exact .inr ⟨tail, rfl, rfl⟩
  · exact .inl ⟨tail, reached, left⟩

structure Lexeme.Parted (cut : Nat) (early late : List Lexeme) : Prop where
  before : ∀ lexeme ∈ early, lexeme.span.stop ≤ cut
  behind : ∀ lexeme ∈ late, cut ≤ lexeme.span.start

theorem Lexeme.Parted.mono {cut : Nat} {early late first second : List Lexeme}
    (parted : Parted cut early late) (less : first ⊆ early) (fewer : second ⊆ late) :
    Parted cut first second :=
  ⟨fun lexeme member => parted.before lexeme (less member), fun lexeme member =>
    parted.behind lexeme (fewer member)⟩

theorem Span.not_holds_of_apart {span : Span} {lexemes : List Lexeme} {cut : Nat}
    (apart : (∀ lexeme ∈ lexemes, lexeme.span.stop ≤ cut) ∨ ∀ lexeme ∈ lexemes,
      cut ≤ lexeme.span.start)
    (ends : (∃ lexeme ∈ lexemes, lexeme.span.start = span.start) ∧ ∃ lexeme ∈ lexemes,
      lexeme.span.stop = span.stop) :
    ¬ span.Holds cut := by
  obtain ⟨⟨opening, starts, start⟩, closing, stops, stop⟩ := ends
  rintro ⟨behind, before⟩
  obtain all | all := apart
  · have := all closing stops
    omega
  · have := all opening starts
    omega

namespace Scope.Braces

open Lexeme (Parted)

variable {braces : Braces} {opened : List Scope} {passed lexemes early late : List Lexeme}
  {spans : List Span} {cut : Nat}

def after (braces : Braces) (lexemes : List Lexeme) : Braces :=
  lexemes.foldl (fun (braces : Braces) lexeme => braces.step lexeme.token) braces

@[simp]
theorem after_nil : braces.after [] = braces := rfl

@[simp]
theorem after_cons (lexeme : Lexeme) :
    braces.after (lexeme :: lexemes) = (braces.step lexeme.token).after lexemes := rfl

@[simp]
theorem after_append : braces.after (early ++ late) = (braces.after early).after late :=
  List.foldl_append

theorem step_plain {token : Token} (plain : token.Plain) : braces.step token = braces := by
  unfold step
  split <;> simp_all

theorem after_plain (plain : ∀ lexeme ∈ passed, lexeme.token.Plain) :
    braces.after passed = braces := by
  induction passed with
  | nil => rfl
  | cons lexeme passed ih =>
    obtain ⟨here, further⟩ := List.forall_mem_cons.mp plain
    rw [after_cons, step_plain here, ih further]

theorem opened_after (flat : ∀ lexeme ∈ passed, lexeme.token ≠ .punct .leftBrace ∧
    lexeme.token ≠ .punct .rightBrace) :
    (braces.after passed).opened = braces.opened := by
  induction passed generalizing braces with
  | nil => rfl
  | cons lexeme passed ih =>
    obtain ⟨here, further⟩ := List.forall_mem_cons.mp flat
    rw [after_cons, ih further]
    unfold step
    split <;> simp_all

theorem step_opening {token : Token} (opens : token = .punct .leftBrace) :
    step ⟨opened, false⟩ token = ⟨.function :: opened, false⟩ := by
  rw [opens]
  rfl

theorem step_closing {token : Token} {scope : Scope} (closes : token = .punct .rightBrace) :
    step ⟨scope :: opened, false⟩ token = ⟨opened, false⟩ := by
  rw [closes]
  rfl

theorem scope_unopened (unopened : braces.opened = []) : braces.scope = .topLevel := by
  simp [scope, unopened]

theorem scope_nested (depth : Nat) :
    scope ⟨List.replicate depth .function ++ [.contract], false⟩ = if 0 < depth then .function
      else .contract := by
  cases depth <;> rfl

theorem after_braced (braced : Braced passed spans) :
    after ⟨opened, false⟩ passed = ⟨opened, false⟩ := by
  induction braced generalizing opened with
  | nil => rfl
  | plain plain _ ih => rw [after_cons, step_plain plain, ih]
  | block opens _ closes _ within behind =>
    rw [after_cons, step_opening opens, after_append, within, after_cons,
      step_closing closes, behind]

def Inside (opened : List Scope) (spans : List Span) (cut : Nat) (braces : Braces) : Prop :=
  ∃ depth, braces = ⟨List.replicate depth .function ++ opened, false⟩ ∧
    (0 < depth ↔ ∃ span ∈ spans, span.Holds cut)

theorem inside_start (braced : Braced passed spans)
    (behind : ∀ lexeme ∈ passed, cut ≤ lexeme.span.start) :
    Inside opened spans cut ⟨opened, false⟩ :=
  ⟨0,
    rfl, by
      simpa using fun span member => Span.not_holds_of_apart (.inr behind)
        (braced.ends span member)⟩

theorem Inside.enter {span : Span} {within : List Span}
    (inside : Inside (.function :: opened) within cut braces) (holds : span.Holds cut) :
    Inside opened (span :: spans) cut braces := by
  obtain ⟨depth, rfl, _⟩ := inside
  refine ⟨depth + 1, ?_, iff_of_true (Nat.succ_pos _) ⟨span, List.mem_cons_self, holds⟩⟩
  rw [List.replicate_succ', List.append_assoc]
  rfl

theorem Inside.leave {span : Span} (inside : Inside opened spans cut braces)
    (outside : ¬ span.Holds cut) :
    Inside opened (span :: spans) cut braces := by
  obtain ⟨depth, stands, holds⟩ := inside
  exact ⟨depth, stands, holds.trans (by simp [outside])⟩

/-- The braces that are open in the middle of matching ones. -/
theorem inside_after (braced : Braced passed spans) (split : passed = early ++ late)
    (parted : Parted cut early late)
    (filled : ∀ lexeme ∈ passed, lexeme.span.start < lexeme.span.stop) :
    Inside opened spans cut (after ⟨opened, false⟩ early) := by
  induction braced generalizing early late opened with
  | nil =>
    obtain ⟨rfl, rfl⟩ := List.append_eq_nil_iff.mp split.symm
    exact inside_start .nil (by simp)
  | @plain lexeme rest spans plain braced ih =>
    cases early with
    | nil =>
      obtain rfl : lexeme :: rest = late := split
      exact inside_start (.plain plain braced) parted.behind
    | cons first early =>
      obtain ⟨rfl, rfl⟩ := List.cons_eq_cons.mp split
      have further := parted.mono (List.subset_cons_self _ _) (List.Subset.refl _)
      rw [after_cons, step_plain plain]
      exact ih rfl further (List.forall_mem_cons.mp filled).2
  | @block opening inner closing rest blocks spans opens braced closes more within behind =>
    cases early with
    | nil =>
      obtain rfl : opening :: (inner ++ closing :: rest) = late := split
      exact inside_start (.block opens braced closes more) parted.behind
    | cons first early =>
      obtain ⟨rfl, same⟩ := List.cons_eq_cons.mp split
      obtain ⟨opened_lt, filled⟩ := List.forall_mem_cons.mp filled
      have further := parted.mono (List.subset_cons_self _ _) (List.Subset.refl _)
      have first_le := parted.before opening List.mem_cons_self
      rw [after_cons, step_opening opens]
      obtain ⟨tail, rfl, rfl⟩ | ⟨tail, rfl, rfl⟩ := cut_of_append_cons same
      · have closed_lt := filled closing (by simp)
        have le_closing := parted.behind closing (by simp)
        have nearer := further.mono (List.Subset.refl _) (List.subset_append_left tail _)
        have inside : Inside (.function :: opened) blocks cut
            (after ⟨.function :: opened, false⟩ early) :=
          within rfl nearer fun lexeme member => filled lexeme (List.mem_append_left _ member)
        exact inside.enter
          ⟨Nat.lt_of_lt_of_le opened_lt first_le, Nat.lt_of_le_of_lt le_closing closed_lt⟩
      · have le_cut := further.before closing (by simp)
        have later : Parted cut tail late := further.mono (by intro other; simp +contextual)
          (List.Subset.refl _)
        rw [after_append, after_braced braced, after_cons, step_closing closes]
        have inside : Inside opened spans cut (after ⟨opened, false⟩ tail) :=
          behind rfl later fun lexeme member => filled lexeme (by simp [List.mem_append.mp member])
        exact inside.leave fun holds => Nat.not_lt.mpr le_cut holds.2

end Scope.Braces

namespace ContractDecl

def braces? (lexemes : List Lexeme) (decl : ContractDecl) : Option Span :=
  (lexemes.find? fun lexeme => lexeme.token == .punct .leftBrace && decl.name.span.stop ≤
    lexeme.span.start).map fun opening => ⟨opening.span.start, decl.span.stop⟩

def Encloses (lexemes : List Lexeme) (decl : ContractDecl) (offset : Nat) : Prop :=
  ∃ span ∈ decl.braces? lexemes, span.Holds offset

/-- Whether an offset lies between the braces of the handler or of a function of a contract. -/
def InBody (decl : ContractDecl) (offset : Nat) : Prop :=
  ∃ body ∈ decl.bodies, body.span.Holds offset

instance (lexemes : List Lexeme) (decl : ContractDecl) (offset : Nat) :
    Decidable (decl.Encloses lexemes offset) :=
  inferInstanceAs (Decidable (∃ span ∈ decl.braces? lexemes, span.Holds offset))

instance (decl : ContractDecl) (offset : Nat) : Decidable (decl.InBody offset) :=
  inferInstanceAs (Decidable (∃ body ∈ decl.bodies, body.span.Holds offset))

namespace HasForm

open Scope.Braces
open Lexeme (Parted)

variable {decl : ContractDecl} {form : ContractForm} {early late whole before behind : List Lexeme}
  {cut : Nat}

theorem ends_braces (form : ContractForm) :
    (∃ lexeme ∈ form.lexemes, lexeme.span.start = form.braces.start) ∧
    ∃ lexeme ∈ form.lexemes, lexeme.span.stop = form.braces.stop := by
  refine ⟨⟨⟨.punct .leftBrace, form.opening⟩, ?_, rfl⟩, ⟨.punct .rightBrace, form.closing⟩, ?_, rfl⟩
    <;>
    simp [ContractForm.lexemes]

theorem inner_subset (form : ContractForm) : form.inner ⊆ form.lexemes := by
  intro lexeme member
  simp [ContractForm.lexemes, member]

theorem not_inBody (written : decl.HasForm form)
    (apart : (∀ lexeme ∈ form.inner, lexeme.span.stop ≤ cut) ∨ ∀ lexeme ∈ form.inner,
      cut ≤ lexeme.span.start) :
    ¬ decl.InBody cut := by
  rintro ⟨body, member, holds⟩
  obtain ⟨spans, braced, same⟩ := written.braced
  exact Span.not_holds_of_apart apart
    (braced.ends body.span ((same _).mpr ⟨body, member, rfl⟩)) holds

theorem outside (written : decl.HasForm form)
    (apart : (∀ lexeme ∈ form.lexemes, lexeme.span.stop ≤ cut) ∨ ∀ lexeme ∈ form.lexemes,
      cut ≤ lexeme.span.start) :
    ¬ form.braces.Holds cut ∧ ¬ decl.InBody cut := by
  refine ⟨Span.not_holds_of_apart apart (ends_braces form), written.not_inBody ?_⟩
  exact apart.imp (fun all lexeme member => all lexeme (inner_subset form member))
    fun all lexeme member => all lexeme (inner_subset form member)

theorem flat_heading (written : decl.HasForm form) : ∀ lexeme ∈ form.heading,
    lexeme.token ≠ .punct .leftBrace ∧ lexeme.token ≠ .punct .rightBrace := by
  intro lexeme member
  obtain noted | rfl | rfl : lexeme ∈ form.notes ∨ lexeme = ⟨.keyword .contractWord, form.word⟩ ∨
      lexeme = ⟨.ident form.name.name, form.name.span⟩ := by
        simpa [ContractForm.heading] using member
  · have plain := written.level.plain lexeme noted
    exact ⟨plain.1, plain.2.1⟩
  · simp
  · simp

theorem after_heading (written : decl.HasForm form) :
    after ⟨[], false⟩ form.heading = ⟨[], true⟩ := by
  rw [ContractForm.heading, after_append, after_plain written.level.plain]
  rfl

theorem after_lexemes (written : decl.HasForm form) :
    after ⟨[], false⟩ form.lexemes = ⟨[], false⟩ := by
  obtain ⟨spans, braced, _⟩ := written.braced
  have inner : after ⟨[.contract], false⟩ form.inner = ⟨[.contract], false⟩ := after_braced braced
  rw [ContractForm.lexemes, after_append, written.after_heading, after_cons, after_append]
  change (after ⟨[.contract], false⟩ form.inner).after _ = _
  rw [inner]
  rfl

/-- What the braces that are open at an offset say about a contract: none are open and the offset is
outside of it, or that of the contract is, and those of functions just if the offset is in a body.
-/
def Tells (decl : ContractDecl) (form : ContractForm) (cut : Nat) (braces : Scope.Braces) : Prop :=
  (braces.opened = [] ∧ ¬ form.braces.Holds cut ∧ ¬ decl.InBody cut) ∨
    (form.braces.Holds cut ∧ ∃ depth,
      braces = ⟨List.replicate depth .function ++ [.contract], false⟩ ∧
      (0 < depth ↔ decl.InBody cut))

/-- The braces that are open in the middle of a contract. -/
theorem tells (written : decl.HasForm form) (split : form.lexemes = early ++ late)
    (parted : Parted cut early late)
    (filled : ∀ lexeme ∈ form.lexemes, lexeme.span.start < lexeme.span.stop) :
    Tells decl form cut (after ⟨[], false⟩ early) := by
  let opening : Lexeme := ⟨.punct .leftBrace, form.opening⟩
  let closing : Lexeme := ⟨.punct .rightBrace, form.closing⟩
  obtain ⟨tail, same, rfl⟩ | ⟨front, rfl, same⟩ := cut_of_append_cons split
  -- In front of the opening brace.
  · have le_opening : cut ≤ form.opening.start := parted.behind opening (by simp [opening])
    refine .inl ⟨opened_after fun lexeme member => ?_, fun holds =>
      Nat.not_lt.mpr le_opening holds.1, ?_⟩
    · exact written.flat_heading lexeme (same ▸ List.mem_append_left _ member)
    · exact written.not_inBody (.inr fun lexeme member => parted.behind lexeme (by simp [member]))
  obtain ⟨tail, reached, rfl⟩ | ⟨tail, rfl, nothing⟩ := cut_of_append_cons same
  -- Between the braces.
  · obtain ⟨spans, braced, bodies⟩ := written.braced
    have opening_le : form.opening.stop ≤ cut := parted.before opening (by simp [opening])
    have le_closing : cut ≤ form.closing.start := parted.behind closing (by simp [closing])
    have opening_lt : form.opening.start < form.opening.stop :=
      filled opening (by simp [ContractForm.lexemes, opening])
    have closing_lt : form.closing.start < form.closing.stop :=
      filled closing (by simp [ContractForm.lexemes, closing])
    have between : Parted cut front tail :=
      parted.mono (by intro lexeme; simp +contextual) (List.subset_append_left _ _)
    have within : Inside [.contract] spans cut (after ⟨[.contract], false⟩ front) :=
      inside_after braced reached between fun lexeme member =>
        filled lexeme (inner_subset form member)
    obtain ⟨depth, stands, holds⟩ := within
    refine .inr
      ⟨⟨Nat.lt_of_lt_of_le opening_lt opening_le, Nat.lt_of_le_of_lt le_closing closing_lt⟩, depth,
        ?_, holds.trans ?_⟩
    · rw [after_append, written.after_heading, after_cons]
      exact stands
    · constructor
      · rintro ⟨span, member, holds⟩
        obtain ⟨body, listed, rfl⟩ := (bodies span).mp member
        exact ⟨body, listed, holds⟩
      · rintro ⟨body, listed, holds⟩
        exact ⟨body.span, (bodies _).mpr ⟨body, listed, rfl⟩, holds⟩
  -- Behind the closing brace.
  · obtain ⟨rfl, rfl⟩ := List.append_eq_nil_iff.mp nothing.symm
    exact .inl ⟨congrArg Scope.Braces.opened written.after_lexemes,
      written.outside (.inl parted.before)⟩

/-- The braces of a contract in a text of which it is a part. -/
theorem braces?_eq (written : decl.HasForm form) (part : whole = before ++ (form.lexemes ++ behind))
    (filled : ∀ lexeme ∈ whole, lexeme.span.start < lexeme.span.stop)
    (apart : whole.Pairwise fun first second => first.span.stop ≤ second.span.start) :
    decl.braces? whole = some form.braces := by
  let name : Lexeme := ⟨.ident form.name.name, form.name.span⟩
  let opening : Lexeme := ⟨.punct .leftBrace, form.opening⟩
  obtain ⟨rest, split⟩ : ∃ rest, whole = (before ++ form.heading) ++ opening :: rest :=
    ⟨_, by rw [part, ContractForm.lexemes, List.append_assoc, List.append_assoc, List.cons_append]⟩
  have named : name ∈ form.heading := by simp [ContractForm.heading, name]
  have name_le : form.name.span.stop ≤ form.opening.start := by
    rw [split] at apart
    exact (List.pairwise_append.mp apart).2.2 name
      (List.mem_append_right _ named) opening List.mem_cons_self
  have found : (whole.find? fun lexeme =>
      lexeme.token == .punct .leftBrace && decl.name.span.stop ≤ lexeme.span.start) =
        some opening := by
    refine List.find?_eq_some_iff_append.mpr
      ⟨by simp [opening, ← written.name, name_le], _, rest, split, ?_⟩
    intro lexeme member
    obtain early | heads := List.mem_append.mp member
    · have filling := filled lexeme (by simp [split, early])
      have behind_name := filled name (by simp [split, named])
      rw [part] at apart
      have before_name : lexeme.span.stop ≤ form.name.span.start :=
        (List.pairwise_append.mp apart).2.2 lexeme early name
          (by simp [ContractForm.lexemes, named])
      have none : ¬ form.name.span.stop ≤ lexeme.span.start := by
        simp only [name] at behind_name
        omega
      simp [← written.name, none]
    · simp [(written.flat_heading lexeme heads).1]
  rw [braces?, found, ContractForm.braces, written.stop]
  rfl

theorem exists_start (written : decl.HasForm form) : ∃ first rest, form.lexemes = first :: rest ∧
    decl.span.start = first.span.start := by
  obtain ⟨first, starts, same⟩ := Option.map_eq_some_iff.mp written.start
  obtain ⟨rest, split⟩ := List.head?_eq_some_iff.mp starts
  exact ⟨first, rest, split, same.symm⟩

end HasForm

def Outside (lexemes : List Lexeme) (decl : ContractDecl) (offset : Nat) : Prop :=
  ¬ decl.Encloses lexemes offset ∧ ¬ decl.InBody offset

end ContractDecl

section Contracts

open Scope.Braces
open Lexeme (Parted)

variable {decls : List ContractDecl} {forms : List ContractForm}
  {whole front early late : List Lexeme} {cut : Nat}

theorem ContractForm.exists_of_mem (written : List.Forall₂ ContractDecl.HasForm decls forms)
    {decl : ContractDecl} (member : decl ∈ decls) : ∃ form before behind, decl.HasForm form ∧
      forms.flatMap ContractForm.lexemes = before ++ (form.lexemes ++ behind) := by
  induction written with
  | nil => cases member
  | @cons first form decls forms here _ ih =>
    obtain rfl | later := List.mem_cons.mp member
    · exact ⟨form, [], _, here, List.flatMap_cons⟩
    · obtain ⟨found, before, behind, has, split⟩ := ih later
      exact ⟨found, form.lexemes ++ before, behind,
        has, by rw [List.flatMap_cons, split, List.append_assoc]⟩

/-- What the braces that are open at an offset say about the contracts of a text: none are open and
the offset is outside of them all, or it is in one of them, to which the first open brace belongs.
-/
inductive Scope.Braces.Tell (lexemes : List Lexeme) (cut : Nat) (decls : List ContractDecl)
    (braces : Scope.Braces) :
    Prop
  | outside (unopened : braces.opened = []) (out : ∀ decl ∈ decls, decl.Outside lexemes cut)
  | inside {earlier decl later depth} (split : decls = earlier ++ decl :: later)
      (encloses : decl.Encloses lexemes cut) (begun : decl.span.start ≤ cut)
      (stands : braces = ⟨List.replicate depth .function ++ [.contract], false⟩)
      (body : 0 < depth ↔ decl.InBody cut)
      (others : ∀ other ∈ earlier ++ later, other.Outside lexemes cut)
      (further : ∀ other ∈ later, cut < other.span.start)

structure Lexeme.Ordered (lexemes : List Lexeme) : Prop where
  filled : ∀ lexeme ∈ lexemes, lexeme.span.start < lexeme.span.stop
  apart : lexemes.Pairwise fun first second => first.span.stop ≤ second.span.start

theorem ContractDecl.HasForm.encloses_iff {decl : ContractDecl} {form : ContractForm}
    {before behind : List Lexeme} (written : decl.HasForm form) (ordered : Lexeme.Ordered whole)
    (part : whole = before ++ (form.lexemes ++ behind)) :
    decl.Encloses whole cut ↔ form.braces.Holds cut := by
  simp [Encloses, written.braces?_eq part ordered.filled ordered.apart]

theorem ContractDecl.HasForm.outside_of {decl : ContractDecl} {form : ContractForm}
    {before behind : List Lexeme} (written : decl.HasForm form) (ordered : Lexeme.Ordered whole)
    (part : whole = before ++ (form.lexemes ++ behind))
    (apart : (∀ lexeme ∈ form.lexemes, lexeme.span.stop ≤ cut) ∨ ∀ lexeme ∈ form.lexemes,
      cut ≤ lexeme.span.start) :
    decl.Outside whole cut := by
  rw [Outside, written.encloses_iff ordered part]
  exact written.outside apart

theorem ContractForm.outside_of_behind (written : List.Forall₂ ContractDecl.HasForm decls forms)
    (ordered : Lexeme.Ordered whole) (part : whole = front ++ forms.flatMap ContractForm.lexemes)
    (behind : ∀ lexeme ∈ forms.flatMap ContractForm.lexemes, cut ≤ lexeme.span.start) :
    ∀ decl ∈ decls, decl.Outside whole cut ∧ cut ≤ decl.span.start := by
  intro decl member
  obtain ⟨form, before, after, has, split⟩ := ContractForm.exists_of_mem written member
  obtain ⟨first, rest, starts, same⟩ := has.exists_start
  refine ⟨has.outside_of ordered (by rw [part, split, List.append_assoc])
    (.inr fun lexeme among => ?_), ?_⟩
  · exact behind lexeme (by simp [split, among])
  · rw [same]
    exact behind first (by simp [split, starts])

theorem Scope.Braces.Tell.cons {braces : Scope.Braces} (tell : Tell whole cut decls braces)
    {decl : ContractDecl} (outside : decl.Outside whole cut) :
    Tell whole cut (decl :: decls) braces := by
  cases tell with
  | outside unopened out => exact .outside unopened (List.forall_mem_cons.mpr ⟨outside, out⟩)
  | @inside earlier _ _ _ split encloses begun stands body others further =>
    have longer := congrArg (decl :: ·) split
    rw [← List.cons_append] at longer
    exact .inside longer encloses begun stands body
      (List.forall_mem_cons.mpr ⟨outside, others⟩) further

theorem Scope.Braces.tell_contracts (written : List.Forall₂ ContractDecl.HasForm decls forms)
    (ordered : Lexeme.Ordered whole) (part : whole = front ++ forms.flatMap ContractForm.lexemes)
    (split : forms.flatMap ContractForm.lexemes = early ++ late) (parted : Parted cut early late) :
    Tell whole cut decls (after ⟨[], false⟩ early) := by
  induction written generalizing front early with
  | nil =>
    obtain ⟨rfl, rfl⟩ := List.append_eq_nil_iff.mp split.symm
    exact .outside rfl (by simp)
  | @cons decl form decls forms here written ih =>
    rw [List.flatMap_cons] at part split
    obtain ⟨more, rfl, left⟩ | ⟨tail, reached, rfl⟩ := List.append_eq_append_iff.mp split
    · have out := here.outside_of ordered part
        (.inl fun lexeme member => parted.before lexeme (by simp [member]))
      rw [after_append, here.after_lexemes]
      refine (ih (by rw [part, List.append_assoc]) left ?_).cons out
      exact parted.mono (List.subset_append_right _ _) (List.Subset.refl _)
    · have filled : ∀ lexeme ∈ form.lexemes, lexeme.span.start < lexeme.span.stop :=
        fun lexeme member =>
        ordered.filled lexeme (by simp [part, member])
      have rest : whole = (front ++ form.lexemes) ++ forms.flatMap ContractForm.lexemes := by
        rw [part, List.append_assoc]
      have encloses : decl.Encloses whole cut ↔ form.braces.Holds cut :=
        here.encloses_iff ordered part
      have nearer : Parted cut early tail :=
        parted.mono (List.Subset.refl _) (List.subset_append_left _ _)
      obtain ⟨unopened, unheld, bodiless⟩ | ⟨holds, depth, stands, body⟩ :=
        here.tells reached nearer filled
      · have out := ContractForm.outside_of_behind written ordered rest fun lexeme member =>
          parted.behind lexeme (List.mem_append_right _ member)
        exact .outside unopened
          (List.forall_mem_cons.mpr ⟨⟨encloses.not.mpr unheld, bodiless⟩, fun other member =>
          (out other member).1⟩)
      · let closing : Lexeme := ⟨.punct .rightBrace, form.closing⟩
        have closes : closing ∈ form.lexemes := by simp [ContractForm.lexemes, closing]
        have later : ∀ lexeme ∈ forms.flatMap ContractForm.lexemes,
            cut + 1 ≤ lexeme.span.start := by
          intro lexeme member
          have apart := ordered.apart
          rw [rest] at apart
          exact Nat.le_trans holds.2
            ((List.pairwise_append.mp apart).2.2 closing
              (List.mem_append_right _ closes) lexeme member)
        have out := ContractForm.outside_of_behind written ordered rest fun lexeme member =>
          Nat.le_of_succ_le (later lexeme member)
        have further := ContractForm.outside_of_behind written ordered rest later
        obtain ⟨first, others, starts, same⟩ := here.exists_start
        have begun : decl.span.start ≤ cut := by
          cases early with
          | nil => simp at stands
          | cons head early =>
            obtain ⟨rfl, _⟩ := List.cons_eq_cons.mp (starts.symm.trans reached)
            have filling := filled first (by simp [starts])
            have passed := parted.before first List.mem_cons_self
            omega
        have split : decl :: decls = [] ++ decl :: decls := rfl
        exact .inside split (encloses.mpr holds) begun stands body
          (fun other member => (out other member).1) fun other member => (further other member).2

end Contracts

namespace SyntaxTree

def lexemes (text : String) : List Lexeme := (Lexer.run (.ofText text) text.toList).lexemes.getD []

theorem forms_of_read {text : String} (clean : (read text).problems = []) :
    Lexer.run (.ofText text) text.toList = ⟨some (lexemes text), []⟩ ∧
      ∃ forms, List.Forall₂ ContractDecl.HasForm (read text).tree.contracts forms ∧
        lexemes text = forms.flatMap ContractForm.lexemes := by
  obtain ⟨contracts, problems, last, parsed, runs, _⟩ :=
    contracts_ofLexemes (.ofText text) (lexemes text)
  have tree : (read text).tree = ⟨contracts⟩ := congrArg Prod.fst parsed
  have found : (read text).problems.Perm
      ((Lexer.run (.ofText text) text.toList).problems ++ problems) := by
    have second := congrArg Prod.snd parsed
    dsimp only at second
    rw [← second]
    exact List.mergeSort_perm _ _
  rw [clean] at found
  obtain ⟨lexed, rfl⟩ := List.append_eq_nil_iff.mp found.nil_eq.symm
  obtain ⟨known, read⟩ := Lexer.run_of_no_problems lexed
  have same : lexemes text = known := by rw [lexemes, read]; rfl
  obtain ⟨forms, written, split⟩ := Parse.forms_of_contracts (Nat.lt_succ_self _) (runs 0)
  exact ⟨by rw [read, same], forms, by rwa [tree], split⟩

theorem ordered_lexemes (text : String) : Lexeme.Ordered (lexemes text) := by
  rw [lexemes]
  cases read : (Lexer.run (.ofText text) text.toList).lexemes with
  | none => exact ⟨by simp, .nil⟩
  | some known =>
    have lays := Lexer.run_lays read
    exact ⟨fun lexeme member => (lays.filled lexeme member).1, lays.apart⟩

end SyntaxTree

theorem Scope.atEnd_eq {chars : List Char} {early : List Lexeme}
    (scans : Lexer.Scans 0 chars early ∨ ∃ span,
      Lexer.Scans 0 chars (early ++ [⟨.punct .slash, span⟩])) :
    Scope.atEnd chars = (Scope.Braces.after ⟨[], false⟩ early).scope := by
  obtain whole | ⟨span, more⟩ := scans
  · have read : Lexer.run (.ofChars chars) chars = ⟨some early, []⟩ := Lexer.run_eq_iff.mpr whole
    rw [atEnd, read]
    rfl
  · have read : Lexer.run (.ofChars chars) chars = ⟨some (early ++ [⟨.punct .slash, span⟩]), []⟩ :=
      Lexer.run_eq_iff.mpr more
    have last : Scope.Braces.after ⟨[], false⟩ (early ++ [⟨.punct .slash, span⟩]) =
        Scope.Braces.after ⟨[], false⟩ early :=
      Scope.Braces.after_append.trans (Scope.Braces.after_plain (by simp))
    rw [← last, atEnd, read]
    rfl

theorem SyntaxTree.tell_of_read {text : String} {offset : Nat} (clean : (read text).problems = [])
    (within : offset ≤ text.length) (apart : ∀ lexeme ∈ lexemes text, ¬ lexeme.span.Holds offset)
    (clear : ∀ comment ∈ Lexer.blockComments 0 text.toList, ¬ comment.Holds offset) :
    ∃ braces, Scope.atEnd (text.toList.take offset) = braces.scope ∧
      Scope.Braces.Tell (lexemes text) offset (read text).tree.contracts braces := by
  obtain ⟨lexed, forms, written, split⟩ := forms_of_read clean
  rw [← String.length_toList] at within
  obtain ⟨early, late, cuts⟩ :=
    (Lexer.run_eq_iff.mp lexed).cuts within (by simpa using apart) (by simpa using clear)
  rw [Nat.zero_add] at cuts
  have parted : Lexeme.Parted offset early late := ⟨cuts.before, cuts.behind⟩
  have whole : lexemes text = [] ++ forms.flatMap ContractForm.lexemes := split
  exact ⟨_, Scope.atEnd_eq cuts.scans,
    Scope.Braces.tell_contracts written (ordered_lexemes text) whole
      (split.symm.trans cuts.split) parted⟩

namespace EditorContext

theorem beforeCursor_at (path : String) {text : String} {offset : Nat}
    (within : offset ≤ text.length) :
    beforeCursor ⟨path, text, some ((LineTable.ofText text).location offset)⟩ =
      text.toList.take offset := by
  rw [← String.length_toList] at within
  obtain ⟨number, before, body, after, line, column, inside, rfl⟩ :=
    LineTable.exists_line_of_offset within
  change text.toList.take
    ((LineTable.ofChars text.toList).offset ((LineTable.ofChars text.toList).location _)) = _
  rw [line.location_eq inside, line.offset_eq inside]

/-- Where a text is read without problems, what is offered at a cursor outside of its tokens and
block comments is what fits the braces that are matched around it: those of a body, those of a
contract but of no body, or none. In a contract, the declarations that are offered are those of the
one whose braces are around the cursor. A line comment around the cursor does no harm. -/
theorem scope_matches_tree (path text : String) (offset : Nat) (within : offset ≤ text.length)
    (clean : (SyntaxTree.read text).problems = [])
    (apart : ∀ lexeme ∈ SyntaxTree.lexemes text, ¬ lexeme.span.Holds offset)
    (clear : ∀ comment ∈ Lexer.blockComments 0 text.toList, ¬ comment.Holds offset) :
    let context : EditorContext := ⟨path, text, some ((LineTable.ofText text).location offset)⟩
    let scope := Scope.atEnd context.beforeCursor
    let contracts := (SyntaxTree.read text).tree.contracts
    let lexemes := SyntaxTree.lexemes text
    (scope = .function ↔ ∃ decl ∈ contracts, decl.InBody offset) ∧
      (scope = .contract ↔
        (∃ decl ∈ contracts, decl.Encloses lexemes offset) ∧ ¬ ∃ decl ∈ contracts,
          decl.InBody offset) ∧
      (scope = .topLevel ↔ ¬ ∃ decl ∈ contracts, decl.Encloses lexemes offset) ∧
      (scope ≠ .topLevel → ∃ decl ∈ contracts, decl.Encloses lexemes offset ∧
        (∀ other ∈ contracts, other.Encloses lexemes offset → other = decl) ∧
        context.contract? context.beforeCursor.length = some decl) := by
  obtain ⟨braces, ends, tell⟩ := SyntaxTree.tell_of_read clean within apart clear
  intro context scope contracts lexemes
  have before : context.beforeCursor = text.toList.take offset := beforeCursor_at path within
  have here : scope = braces.scope := by rw [← ends, ← before]
  have cursor : context.beforeCursor.length = offset := by
    rw [before, List.length_take_of_le (by rwa [String.length_toList])]
  rw [here, cursor]
  cases tell with
  | outside unopened out =>
    have free : ¬ ∃ decl ∈ contracts, decl.InBody offset := fun ⟨decl, member, inside⟩ =>
      (out decl member).2 inside
    have apart : ¬ ∃ decl ∈ contracts, decl.Encloses lexemes offset :=
      fun ⟨decl, member, inside⟩ => (out decl member).1 inside
    simp [Scope.Braces.scope_unopened unopened, free, apart]
  | @inside earlier decl later depth split encloses begun stands body others further =>
    have listed : decl ∈ contracts := by simp [contracts, split]
    have only : ∀ other ∈ contracts, other.Encloses lexemes offset ∨ other.InBody offset →
        other = decl := by
      intro other member holds
      rw [show contracts = earlier ++ decl :: later from split, List.mem_append,
        List.mem_cons] at member
      obtain among | same | among := member
      · exact absurd holds (not_or.mpr (others other (List.mem_append_left _ among)))
      · exact same
      · exact absurd holds (not_or.mpr (others other (List.mem_append_right _ among)))
    have bodies : (∃ other ∈ contracts, other.InBody offset) ↔ 0 < depth := by
      refine Iff.trans
        ⟨fun ⟨other, member, inside⟩ => ?_, fun inside => ⟨decl, listed, inside⟩⟩ body.symm
      exact only other member (.inr inside) ▸ inside
    have enclosed : ∃ other ∈ contracts, other.Encloses lexemes offset := ⟨decl, listed, encloses⟩
    have offered : context.contract? offset = some decl := by
      have none : later.filter (fun other => other.span.start ≤ offset) = [] := by
        simpa [List.filter_eq_nil_iff] using further
      rw [contract?, split, List.filter_append, List.filter_cons_of_pos (by simpa using begun),
        none]
      simp
    rw [bodies, stands, Scope.Braces.scope_nested]
    have alone : ∀ other ∈ contracts, other.Encloses lexemes offset → other = decl :=
      fun other member holds => only other member (.inl holds)
    refine ⟨?_, ?_, ?_, fun _ => ⟨decl, listed, encloses, alone, offered⟩⟩
    all_goals by_cases nested : 0 < depth <;> simp [nested, enclosed]

/-- A cursor in a block of a function, and one behind the field of a second contract. -/
theorem scope_matches_tree_of_two_contracts :
    let text :=
      "contract A \x7b x: u64 @nonReentrant f() \x7b if true \x7b  \x7d \x7d \x7d /* \x7d */ contract B \x7b y: u64  \x7d"
    let context (offset : Nat) : EditorContext :=
      ⟨"a", text, some ((LineTable.ofText text).location offset)⟩
    Scope.atEnd (context 50).beforeCursor = .function ∧
      Scope.atEnd (context 85).beforeCursor = .contract ∧
      ∃ decl, decl.name.name = "B" ∧ (context 85).contract? (context 85).beforeCursor.length =
        some decl := by
  intro text context
  have clean : (SyntaxTree.read text).problems = [] := by decide +kernel
  have inside : ∃ decl ∈ (SyntaxTree.read text).tree.contracts, decl.InBody 50 := by decide +kernel
  have free : ¬ ∃ decl ∈ (SyntaxTree.read text).tree.contracts, decl.InBody 85 := by decide +kernel
  have around : ∃ decl ∈ (SyntaxTree.read text).tree.contracts,
      decl.name.name = "B" ∧ decl.Encloses (SyntaxTree.lexemes text) 85 := by decide +kernel
  obtain ⟨first, _⟩ := scope_matches_tree "a" text 50 (by decide) clean (by decide +kernel)
    (by decide +kernel)
  obtain ⟨_, second, _, one⟩ := scope_matches_tree "a" text 85 (by decide) clean (by decide +kernel)
    (by decide +kernel)
  obtain ⟨decl, listed, named, encloses⟩ := around
  have contract := second.mpr ⟨⟨decl, listed, encloses⟩, free⟩
  obtain ⟨found, _, _, only, offered⟩ := one (by rw [contract]; simp)
  exact ⟨first.mpr inside, contract, found, only decl listed encloses ▸ named, offered⟩

end EditorContext

end Covenant
