import MicroCompiler.Ast.Outline
import MicroCompiler.Proofs.Outline.Verbatim
import MicroCompiler.Proofs.Scanner.Respacing
import MicroCompiler.Proofs.Sorting.Category

/-! What a line of an outline shows. A label is the kind of a node with the texts that its spans
stand for, and the line of a node shows its label and its flags. In a tree that was parsed names
have no blanks, literals have no line feeds, and flags stand where they have a meaning. -/

namespace MicroCompiler

open Token (IsLiteralBody lineFeedByte)

/-! ### Texts of tokens -/

variable {src : Source} {s : Span} {c : Char} {b : UInt8}

/-- The bytes of a character of a text are bytes that the text was read from. -/
theorem Source.mem_between_of_mem_text (hc : c ∈ (src.text s).toList)
    (hb : b ∈ String.utf8EncodeChar c) : b ∈ src.between s.start s.stop := by
  by_cases hslice : s.start ≤ s.stop ∧ s.stop ≤ src.size
  · have hbytes : b ∈ (Source.ofString (src.text s)).bytes := by
      rw [Source.bytes_ofString]
      exact List.mem_flatMap.mpr ⟨c, hc, hb⟩
    rw [text_eq_decoded hslice.1 hslice.2, Source.ofString, bytes_decoded] at hbytes
    split_ifs at hbytes
    · exact hbytes
    · cases hbytes
  · rw [Source.text, Source.slice?, if_neg hslice] at hc
    cases hc

theorem Token.IsLiteralBody.lineFeed_notMem {body : List UInt8} (h : IsLiteralBody body) :
    lineFeedByte ∉ body := by
  induction h with
  | nil => simp
  | plain hb _ ih => simp_all [eq_comm]
  | @escape c body hescape _ ih =>
    have hfeed : c ≠ lineFeedByte := by
      rintro rfl
      exact absurd hescape (by decide)
    simpa [hfeed.symm, ih] using (by decide : lineFeedByte ≠ Token.backslashByte)

/-- A text without blanks and line feeds. -/
def IsWord (text : List Char) : Prop := ' ' ∉ text ∧ '\n' ∉ text

theorem Source.HasName.isWord (h : src.HasName s) : IsWord (src.text s).toList := by
  obtain ⟨t, hmem, hkind, rfl⟩ := h
  have hlexeme := Token.isLexeme_between hmem (by rw [hkind]; rfl) (by rw [hkind]; decide)
  have hblank := hlexeme.not_isBlank (by rw [hkind]; decide)
  constructor
  · intro hc
    exact absurd (hblank 32 (mem_between_of_mem_text hc (by decide))) (by decide)
  · intro hc
    exact absurd (hblank 10 (mem_between_of_mem_text hc (by decide))) (by decide)

theorem Source.HasLiteral.lineFeed_notMem (h : src.HasLiteral s) : '\n' ∉ (src.text s).toList := by
  obtain ⟨t, hmem, hkind, rfl⟩ := h
  have hlexeme := Token.isLexeme_between hmem (by rw [hkind]; rfl) (by rw [hkind]; decide)
  rw [hkind] at hlexeme
  obtain ⟨body, hbody, hbetween⟩ := hlexeme.isLiteral
  have hfits : t.span.stop ≤ src.size := by
    obtain ⟨offset, -, rfl⟩ := Token.mem_scanAll hmem
    exact (Token.solid_next (by rw [hkind]; rfl) (by rw [hkind]; decide)).fits
  intro hc
  have hfeed := mem_between_of_mem_text (b := 10) hc (by decide)
  rw [Span.unquoted, Source.between_inner hfits hbetween] at hfeed
  exact hbody.lineFeed_notMem hfeed

/-- No number of the source has a fraction. -/
def Source.IsWhole (src : Source) : Prop :=
  ∀ t ∈ src.tokens, t.kind = .number → '.' ∉ (src.text t.span).toList

instance : DecidablePred Source.IsWhole := fun src =>
  inferInstanceAs (Decidable (∀ t ∈ src.tokens, t.kind = .number → '.' ∉ (src.text t.span).toList))

theorem Source.HasNumber.int {value : Ast.Number} (h : src.HasNumber value) (hwhole : src.IsWhole) :
    ∃ n, value = .int n := by
  obtain ⟨t, hmem, hkind, hvalue⟩ := h
  have hpoint : (src.text t.span).toList.dropWhile (· ≠ '.') = [] := by
    rw [List.dropWhile_eq_nil_iff]
    intro c hc
    rw [decide_eq_true_iff]
    rintro rfl
    exact hwhole t hmem hkind hc
  unfold Ast.Number.ofText? at hvalue
  simp only [hpoint] at hvalue
  split_ifs at hvalue
  exact ⟨_, (Option.some.inj hvalue).symm⟩

namespace Ast

/-! ### Labels -/

/-- What a node says: its kind, with texts in place of spans and without its children. -/
inductive Label where
  | identifier (name : String)
  | string (value : String)
  | number (value : Number)
  | nil
  | unary (op : UnaryOp)
  | binary (op : BinaryOp)
  | call
  | subscript
  | cast
  | member (name : String)
  | namedType (name : String)
  | pointerType
  | file
  | load (path : String)
  | struct (name : Option String)
  | const (name : String)
  | var (name : String)
  | function (name library : Option String)
  | block
  | definition
  | ifStmt
  | whileStmt
  | deferStmt
  | returnStmt
  | breakStmt
  | continueStmt
  | assignment
  | expression
  deriving DecidableEq, Repr

def NodeKind.label (src : Source) : NodeKind → Label
  | .identifier name => .identifier (src.text name)
  | .string value => .string (src.text value)
  | .number value => .number value
  | .nil => .nil
  | .unary op _ => .unary op
  | .binary op _ _ => .binary op
  | .call _ _ => .call
  | .subscript _ _ => .subscript
  | .cast _ _ => .cast
  | .member _ name => .member (src.text name)
  | .namedType name => .namedType (src.text name)
  | .pointerType _ => .pointerType
  | .file _ => .file
  | .load path => .load (src.text path)
  | .struct name _ => .struct (name.map src.text)
  | .const name _ => .const (src.text name)
  | .var name _ _ => .var (src.text name)
  | .function name _ _ _ library => .function (name.map src.text) (library.map src.text)
  | .block _ => .block
  | .definition _ => .definition
  | .ifStmt _ _ _ => .ifStmt
  | .whileStmt _ _ => .whileStmt
  | .deferStmt _ => .deferStmt
  | .returnStmt _ => .returnStmt
  | .breakStmt => .breakStmt
  | .continueStmt => .continueStmt
  | .assignment _ _ => .assignment
  | .expression _ => .expression

namespace Label

/-- The word that a line begins with. -/
def word : Label → String
  | .identifier _ => "Identifier"
  | .string _ => "StringLiteral"
  | .number _ => "NumberLiteral"
  | .nil => "Nil"
  | .unary _ => "UnaryOp"
  | .binary _ => "BinaryOp"
  | .call => "Call"
  | .subscript => "Subscript"
  | .cast => "Cast"
  | .member _ => "MemberAccess"
  | .namedType _ => "Type"
  | .pointerType => "PointerType"
  | .file => "File"
  | .load _ => "Load"
  | .struct _ => "Struct"
  | .const _ => "Const"
  | .var _ => "Var"
  | .function _ _ => "Function"
  | .block => "Block"
  | .definition => "VariableDefinition"
  | .ifStmt => "If"
  | .whileStmt => "While"
  | .deferStmt => "Defer"
  | .returnStmt => "Return"
  | .breakStmt => "Break"
  | .continueStmt => "Continue"
  | .assignment => "Assignment"
  | .expression => "ExpressionStatement"

/-- A text behind a blank, if there is one. -/
def spaced (text : Option String) : List Char := text.elim [] (' ' :: ·.toList)

/-- A text in quotes behind a blank. -/
def quotedText (text : String) : List Char := ' ' :: '"' :: (text.toList ++ ['"'])

/-- What marks a function that is implemented elsewhere, with its library. -/
def foreignMark (library : Option String) : List Char :=
  [' ', '#', 'f', 'o', 'r', 'e', 'i', 'g', 'n'] ++ library.elim [] quotedText

/-- What marks a function that takes further arguments. -/
def variadicMark : List Char := [' ', '.', '.', '.']

/-- What the line of a function shows behind its name. -/
def extras (flags : Flags) (library : Option String) : List Char :=
  (if flags.foreign then foreignMark library else []) ++ if flags.variadic then variadicMark else []

/-- What a line shows behind its first word. -/
def detail (flags : Flags) : Label → List Char
  | .identifier name | .namedType name | .const name | .var name => ' ' :: name.toList
  | .member name => ' ' :: '.' :: name.toList
  | .number value => ' ' :: value.text.toList
  | .unary op => ' ' :: op.symbol.toList
  | .binary op => ' ' :: op.symbol.toList
  | .string text | .load text => quotedText text
  | .struct name => spaced name
  | .function name library => spaced name ++ extras flags library
  | _ => []

/-- What marks an expression that was written in parentheses. -/
def parenMark : List Char := [' ', '(', 'p', 'a', 'r', 'e', 'n', ')']

/-- What a line ends with. -/
def mark (flags : Flags) : List Char := if flags.inParens then parenMark else []

/-- The line of a node with the label and the flags. -/
def line (label : Label) (flags : Flags) : List Char :=
  label.word.toList ++ (label.detail flags ++ mark flags)

end Label

theorem nameOr_toList (src : Source) (name : Option Span) :
    (nameOr src name).toList = Label.spaced (name.map src.text) := by
  cases name <;> simp [nameOr, Label.spaced]

theorem quoted_toList (src : Source) (s : Span) :
    ' ' :: (quoted src s).toList = Label.quotedText (src.text s) := by
  simp [quoted, Label.quotedText]

/-- The line of a node shows its label and its flags, and nothing else. -/
theorem Node.headline_toList (n : Node) (src : Source) :
    (n.headline src).toList = (n.kind.label src).line n.flags := by
  obtain ⟨kind, span, ⟨inParens, foreign, variadic⟩, serial⟩ := n
  have hmark : ∀ head : String, (if inParens then head ++ " (paren)" else head).toList =
      head.toList ++ Label.mark ⟨inParens, foreign, variadic⟩ := by
    intro head
    cases inParens <;> simp [Label.mark, Label.parenMark]
  simp only [Node.headline, Label.line, ← List.append_assoc, hmark]
  congr 1
  cases kind with
  | function name params returns body library =>
    cases library <;> cases foreign <;> cases variadic <;>
      simp [NodeKind.label, Label.word, Label.detail, Label.extras, Label.foreignMark,
        Label.variadicMark, nameOr_toList, ← quoted_toList]
  | struct => simp [NodeKind.label, Label.word, Label.detail, nameOr_toList]
  | string | load => simp [NodeKind.label, Label.word, Label.detail, ← quoted_toList]
  | _ => simp [NodeKind.label, Label.word, Label.detail]

namespace Label

/-! ### Proper labels -/

/-- The texts of the label fit into a line, and its names are words. -/
def Legible : Label → Prop
  | .identifier name | .member name | .namedType name | .const name | .var name =>
    IsWord name.toList
  | .string text | .load text => '\n' ∉ text.toList
  | .number value => ∃ n, value = .int n
  | .struct name => ∃ text, name = some text ∧ IsWord text.toList
  | .function name library =>
    (∃ text, name = some text ∧ IsWord text.toList) ∧ ∀ path ∈ library, '\n' ∉ path.toList
  | _ => True

/-- Whether the label is that of an expression. -/
def isExpression : Label → Bool
  | .identifier _ | .string _ | .number _ | .nil | .unary _ | .binary _ | .call | .subscript |
      .cast | .member _ => true
  | _ => false

/-- Whether the label is that of a function. -/
def isFunction : Label → Bool
  | .function _ _ => true
  | _ => false

/-- The label can be shown in a line with the flags. -/
structure Proper (label : Label) (flags : Flags) : Prop where
  legible : label.Legible
  inParens : flags.inParens = true → label.isExpression = true
  flagged : flags.foreign = true ∨ flags.variadic = true → label.isFunction = true
  library : ∀ name path, label = .function name (some path) → flags.foreign = true

end Label

/-! ### Labels of parsed nodes -/

variable {kind : NodeKind} {flags : Flags}

theorem NodeKind.Verbatim.legible (h : kind.Verbatim src) (hwhole : src.IsWhole)
    (hnamed : kind.isNamed = true) : (kind.label src).Legible := by
  cases kind with
  | identifier | member | namedType | const | var => exact Source.HasName.isWord h
  | string | load => exact Source.HasLiteral.lineFeed_notMem h
  | number value => exact Source.HasNumber.int h hwhole
  | struct name members =>
    obtain ⟨s, rfl⟩ := Option.isSome_iff_exists.mp hnamed
    exact ⟨src.text s, rfl, (h s rfl).isWord⟩
  | function name params returns body library =>
    obtain ⟨s, rfl⟩ := Option.isSome_iff_exists.mp hnamed
    refine ⟨⟨src.text s, rfl, (h.1 s rfl).isWord⟩, fun path hpath => ?_⟩
    obtain ⟨s, hs, rfl⟩ := Option.map_eq_some_iff.mp hpath
    exact (h.2 s hs).lineFeed_notMem
  | _ => trivial

theorem NodeKind.isExpression_label (h : .expression ∈ kind.categories) :
    (kind.label src).isExpression = true := by
  cases kind <;> simp_all [Label.isExpression, NodeKind.label]

theorem Pool.WellSorted.proper {q : Pool} (h : q.WellSorted kind flags)
    (hverbatim : kind.Verbatim src) (hwhole : src.IsWhole) (hnamed : kind.isNamed = true) :
    (kind.label src).Proper flags where
  legible := hverbatim.legible hwhole hnamed
  inParens hparens := NodeKind.isExpression_label (h.inParens hparens)
  flagged hflagged := by
    obtain ⟨name, params, returns, body, library, rfl⟩ := h.flagged hflagged
    rfl
  library name path hlabel := by
    cases kind with
    | function name' params returns body library =>
      obtain ⟨-, hlibrary⟩ := Label.function.inj hlabel
      obtain ⟨s, rfl, -⟩ := Option.map_eq_some_iff.mp hlibrary
      exact (h.function _ _ _ _ _ rfl).2 (by simp)
    | _ => cases hlabel

end Ast

end MicroCompiler
