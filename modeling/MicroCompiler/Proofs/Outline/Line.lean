import MicroCompiler.Proofs.Outline.Label

/-! Lines tell labels apart. A line begins with a word for the kind of its node, which ends at the
first blank. A name has no blanks, so it ends there too. A literal may have any, but its closing
quote is the last one of the line, because of the few marks that can follow it none has one. So a
line tells all that it shows. -/

namespace MicroCompiler.Ast

/-! ### Words of a line -/

/-- What follows a word: nothing, or a blank and more. -/
def BlankFirst (rest : List Char) : Prop := ∀ c ∈ rest.head?, c = ' '

theorem blankFirst_nil : BlankFirst [] := by simp [BlankFirst]

theorem blankFirst_cons (rest : List Char) : BlankFirst (' ' :: rest) := by simp [BlankFirst]

theorem BlankFirst.append {rest more : List Char} (h : BlankFirst rest) (hmore : BlankFirst more) :
    BlankFirst (rest ++ more) := by
  cases rest with
  | nil => exact hmore
  | cons c rest => exact h

/-- What ends where a character follows that it has not, or nothing, is told by the whole. -/
theorem word_append_inj {stop : Char} {word word' rest rest' : List Char} (hword : stop ∉ word)
    (hword' : stop ∉ word') (hrest : ∀ c ∈ rest.head?, c = stop)
    (hrest' : ∀ c ∈ rest'.head?, c = stop) (h : word ++ rest = word' ++ rest') :
    word = word' ∧ rest = rest' := by
  have htake {w r : List Char} (hw : stop ∉ w) (hr : ∀ c ∈ r.head?, c = stop) :
      (w ++ r).takeWhile (· ≠ stop) = w := by
    have hstop : r.takeWhile (· ≠ stop) = [] := by
      cases r with
      | nil => rfl
      | cons c r => simp [hr c rfl]
    have hall : ∀ c ∈ w, decide (c ≠ stop) = true := by
      intro c hc
      rw [decide_eq_true_iff]
      rintro rfl
      exact hw hc
    rw [List.takeWhile_append_of_pos hall, hstop, List.append_nil]
  have hequal : word = word' := by rw [← htake hword hrest, h, htake hword' hrest']
  subst hequal
  exact ⟨rfl, List.append_cancel_left h⟩

/-- A quote is the last one of a line if at most a fixed text without one at its end follows it. -/
theorem quoted_append_inj {text text' tail rest rest' : List Char}
    (htail : tail.getLast? ≠ some '"') (hrest : rest = [] ∨ rest = tail)
    (hrest' : rest' = [] ∨ rest' = tail) (h : text ++ '"' :: rest = text' ++ '"' :: rest') :
    text = text' ∧ rest = rest' := by
  -- Of two lines that end differently, only one ends with a quote.
  have hdiffer {t t' : List Char} (hne : t ++ ['"'] = t' ++ '"' :: tail) : tail = [] := by
    by_contra hopen
    have hlast := congrArg List.getLast? hne
    rw [List.getLast?_concat, List.append_cons, List.getLast?_append_of_ne_nil _ hopen] at hlast
    exact htail hlast.symm
  have hequal : rest = rest' := by
    rcases hrest with rfl | rfl <;> rcases hrest' with rfl | rfl
    · rfl
    · exact (hdiffer h).symm
    · exact hdiffer h.symm
    · rfl
  subst hequal
  exact ⟨List.append_cancel_right h, rfl⟩

namespace Label

variable {label label' : Label} {flags flags' : Flags}

/-! ### Lines tell labels apart -/

/-- All first words of lines. -/
def words : List String :=
  ["Identifier", "StringLiteral", "NumberLiteral", "Nil", "UnaryOp", "BinaryOp", "Call",
    "Subscript", "Cast", "MemberAccess", "Type", "PointerType", "File", "Load", "Struct", "Const",
    "Var", "Function", "Block", "VariableDefinition", "If", "While", "Defer", "Return", "Break",
    "Continue", "Assignment", "ExpressionStatement"]

theorem words_getElem? (label : Label) : words[label.ctorIdx]? = some label.word := by
  cases label <;> rfl

theorem words_nodup : words.Nodup := by decide

theorem words_isWord : ∀ word ∈ words, IsWord word.toList := by
  unfold IsWord
  decide

theorem isWord_word (label : Label) : IsWord label.word.toList :=
  words_isWord _ (List.mem_of_getElem? label.words_getElem?)

/-- The first word of a line tells its kind. -/
theorem ctorIdx_of_word (h : label.word = label'.word) : label.ctorIdx = label'.ctorIdx := by
  have hsome := label.words_getElem?
  have hsome' := label'.words_getElem?
  rw [h, ← hsome'] at hsome
  have hlt : label.ctorIdx < words.length := by
    by_contra hle
    rw [List.getElem?_eq_none (Nat.le_of_not_lt hle)] at hsome
    rw [← hsome] at hsome'
    cases hsome'
  exact (List.getElem?_inj hlt words_nodup).mp hsome

theorem mark_cases (flags : Flags) : mark flags = [] ∨ mark flags = parenMark := by
  unfold mark
  split_ifs <;> simp

theorem inParens_of_mark (h : mark flags = mark flags') : flags.inParens = flags'.inParens := by
  unfold mark at h
  cases hparens : flags.inParens <;> cases hparens' : flags'.inParens <;> simp_all [parenMark]

theorem blankFirst_mark (flags : Flags) : BlankFirst (mark flags) := by
  rcases mark_cases flags with h | h
  · rw [h]
    exact blankFirst_nil
  · rw [h]
    exact blankFirst_cons _

theorem blankFirst_spaced (text : Option String) : BlankFirst (spaced text) := by
  cases text with
  | none => exact blankFirst_nil
  | some text => exact blankFirst_cons _

theorem blankFirst_extras (flags : Flags) (library : Option String) :
    BlankFirst (extras flags library) := by
  unfold extras
  apply BlankFirst.append
  · split_ifs
    · exact blankFirst_cons _
    · exact blankFirst_nil
  · split_ifs
    · exact blankFirst_cons _
    · exact blankFirst_nil

theorem blankFirst_detail (label : Label) (flags : Flags) : BlankFirst (label.detail flags) := by
  cases label with
  | identifier | string | number | unary | binary | member | namedType | load | const | var =>
    exact blankFirst_cons _
  | struct name => exact blankFirst_spaced name
  | function name library => exact (blankFirst_spaced name).append (blankFirst_extras flags library)
  | _ => exact blankFirst_nil

/-- Whether a function takes further arguments. -/
theorem dots_cases (variadic : Bool) :
    (if variadic then variadicMark else []) = [] ∨ (if variadic then variadicMark else []) =
    variadicMark := by
  cases variadic <;> simp

theorem dots_inj {variadic variadic' : Bool}
    (h : (if variadic then variadicMark else []) = if variadic' then variadicMark else []) :
    variadic = variadic' := by
  cases variadic <;> cases variadic' <;> simp_all [variadicMark]

theorem foreignMark_append_inj {library library' : Option String} {rest rest' : List Char}
    (hrest : rest = [] ∨ rest = variadicMark) (hrest' : rest' = [] ∨ rest' = variadicMark)
    (h : foreignMark library ++ rest = foreignMark library' ++ rest') :
    library = library' ∧ rest = rest' := by
  unfold foreignMark at h
  rw [List.append_assoc, List.append_assoc] at h
  have hbehind := List.append_cancel_left h
  cases library with
  | none =>
    cases library' with
    | none => exact ⟨rfl, hbehind⟩
    | some path' => rcases hrest with rfl | rfl <;> simp [quotedText, variadicMark] at hbehind
  | some path =>
    cases library' with
    | none => rcases hrest' with rfl | rfl <;> simp [quotedText, variadicMark] at hbehind
    | some path' =>
      simp only [Option.elim_some, quotedText, List.cons_append, List.append_assoc, List.nil_append,
        List.cons.injEq, true_and] at hbehind
      obtain ⟨hpath, htail⟩ := quoted_append_inj (by decide) hrest hrest' hbehind
      exact ⟨congrArg some (String.toList_inj.mp hpath), htail⟩

theorem foreignMark_append_ne {library : Option String} {rest rest' : List Char}
    (hrest' : rest' = [] ∨ rest' = variadicMark) : foreignMark library ++ rest ≠ rest' := by
  rcases hrest' with rfl | rfl <;> simp [foreignMark, variadicMark]

/-- What follows the name of a function tells its flags and its library. -/
theorem extras_inj {library library' : Option String}
    (hlibrary : ∀ path, library = some path → flags.foreign = true)
    (hlibrary' : ∀ path, library' = some path → flags'.foreign = true)
    (h : extras flags library = extras flags' library') :
    flags.foreign = flags'.foreign ∧ flags.variadic = flags'.variadic ∧ library = library' := by
  unfold extras at h
  have hdots := dots_cases flags.variadic
  have hdots' := dots_cases flags'.variadic
  cases hforeign : flags.foreign with
  | false =>
    have hnone : library = none := Option.eq_none_iff_forall_ne_some.mpr fun path hpath => by
      rw [hlibrary path hpath] at hforeign
      cases hforeign
    cases hforeign' : flags'.foreign with
    | false =>
      have hnone' : library' = none := Option.eq_none_iff_forall_ne_some.mpr fun path hpath => by
        rw [hlibrary' path hpath] at hforeign'
        cases hforeign'
      simp only [hforeign, hforeign', Bool.false_eq_true, if_false, List.nil_append] at h
      exact ⟨rfl, dots_inj h, hnone.trans hnone'.symm⟩
    | true =>
      simp only [hforeign, hforeign', Bool.false_eq_true, if_false, if_true, List.nil_append] at h
      exact absurd h.symm (foreignMark_append_ne hdots)
  | true =>
    cases hforeign' : flags'.foreign with
    | false =>
      simp only [hforeign, hforeign', Bool.false_eq_true, if_false, if_true, List.nil_append] at h
      exact absurd h (foreignMark_append_ne hdots')
    | true =>
      simp only [hforeign, hforeign', if_true] at h
      obtain ⟨hpath, hrest⟩ := foreignMark_append_inj hdots hdots' h
      exact ⟨rfl, dots_inj hrest, hpath⟩

theorem isWord_int (n : UInt64) : IsWord (Number.int n).text.toList :=
  ⟨not_mem_toString (by decide) n.toNat, not_mem_toString (by decide) n.toNat⟩

theorem int_of_text {m n : UInt64} (h : (Number.int m).text = (Number.int n).text) : m = n := by
  have hread (k : UInt64) : Nat.ofDigitChars 10 (Number.int k).text.toList 0 = k.toNat := by
    rw [show (Number.int k).text = k.toNat.repr from rfl, Nat.toList_repr, Nat.ofDigitChars_toDigits
      (by decide) (by decide)]
  exact UInt64.toNat_inj.mp (by rw [← hread m, h, hread n])

theorem isWord_unary (op : UnaryOp) : IsWord op.symbol.toList := by
  unfold IsWord
  cases op <;> decide

theorem unary_of_symbol {op op' : UnaryOp} (h : op.symbol = op'.symbol) : op = op' := by
  have hfind : ∀ op : UnaryOp, UnaryOp.ofSymbol? op.symbol = some op := by
    intro op
    cases op <;> decide
  exact Option.some.inj ((hfind op).symm.trans (h ▸ hfind op'))

theorem isWord_binary (op : BinaryOp) : IsWord op.symbol.toList := by
  unfold IsWord
  cases op <;> decide

theorem binary_of_symbol {op op' : BinaryOp} (h : op.symbol = op'.symbol) : op = op' := by
  have hfind : ∀ op : BinaryOp, BinaryOp.ofSymbol? op.symbol = some op := by
    intro op
    cases op <;> decide
  exact Option.some.inj ((hfind op).symm.trans (h ▸ hfind op'))

/-- Flags that a label other than that of a function does not have. -/
theorem Proper.plain (h : label.Proper flags) (hlabel : label.isFunction = false) :
    flags.foreign = false ∧ flags.variadic = false := by
  have hflagged := h.flagged
  rw [hlabel] at hflagged
  cases hforeign : flags.foreign <;> cases hvariadic : flags.variadic <;> simp_all

theorem Proper.flags_eq (h : label.Proper flags) (h' : label'.Proper flags')
    (hlabel : label.isFunction = false) (hlabel' : label'.isFunction = false)
    (hmark : mark flags = mark flags') : flags = flags' := by
  obtain ⟨hforeign, hvariadic⟩ := h.plain hlabel
  obtain ⟨hforeign', hvariadic'⟩ := h'.plain hlabel'
  have hparens := inParens_of_mark hmark
  cases flags
  cases flags'
  simp_all

/-- A name ends where its line does or where a mark follows it. -/
theorem name_append_inj {name name' : List Char} (hname : IsWord name) (hname' : IsWord name')
    (h : name ++ mark flags = name' ++ mark flags') : name = name' ∧ mark flags = mark flags' :=
  word_append_inj hname.1 hname'.1 (blankFirst_mark flags) (blankFirst_mark flags') h

theorem quotedText_append_inj {text text' : String}
    (h : quotedText text ++ mark flags = quotedText text' ++ mark flags') :
    text = text' ∧ mark flags = mark flags' := by
  simp only [quotedText, List.cons_append, List.append_assoc, List.nil_append,
    List.cons.injEq, true_and] at h
  obtain ⟨htext, hmark⟩ := quoted_append_inj (by decide) (mark_cases flags) (mark_cases flags') h
  exact ⟨String.toList_inj.mp htext, hmark⟩

theorem function_inj {name library name' library' : Option String}
    (h : (Label.function name library).Proper flags)
    (h' : (Label.function name' library').Proper flags')
    (hrest : spaced name ++ extras flags library ++ mark flags = spaced name' ++ extras flags'
      library' ++ mark flags') :
    Label.function name library = .function name' library' ∧ flags = flags' := by
  have hparens : flags.inParens = false := Bool.eq_false_iff.mpr fun hparens => Bool.false_ne_true
    (h.inParens hparens)
  have hparens' : flags'.inParens = false := Bool.eq_false_iff.mpr fun hparens => Bool.false_ne_true
    (h'.inParens hparens)
  obtain ⟨⟨text, rfl, hword⟩, -⟩ := h.legible
  obtain ⟨⟨text', rfl, hword'⟩, -⟩ := h'.legible
  simp only [mark, hparens, hparens', Bool.false_eq_true, if_false, List.append_nil, spaced,
    Option.elim_some, List.cons_append, List.cons.injEq, true_and] at hrest
  obtain ⟨hname, hextras⟩ := word_append_inj hword.1 hword'.1 (blankFirst_extras _ _)
    (blankFirst_extras _ _) hrest
  obtain ⟨hforeign, hvariadic, rfl⟩ := extras_inj (fun path hpath =>
    h.library _ path (by rw [hpath])) (fun path hpath => h'.library _ path (by rw [hpath])) hextras
  obtain rfl := String.toList_inj.mp hname
  cases flags
  cases flags'
  simp_all

/-- A line tells its label and its flags. -/
theorem line_injective (h : label.Proper flags) (h' : label'.Proper flags')
    (hline : label.line flags = label'.line flags') :
    label = label' ∧ flags = flags' := by
  obtain ⟨hword, hrest⟩ := word_append_inj (isWord_word label).1 (isWord_word label').1
    ((blankFirst_detail label flags).append (blankFirst_mark flags))
    ((blankFirst_detail label' flags').append (blankFirst_mark flags')) hline
  have hctor := ctorIdx_of_word (String.toList_inj.mp hword)
  cases label with
  | identifier name | namedType name | const name | var name =>
    cases label' <;> try cases hctor
    obtain ⟨hname, hmark⟩ := name_append_inj h.legible h'.legible (List.cons.inj hrest).2
    exact ⟨by rw [String.toList_inj.mp hname], h.flags_eq h' rfl rfl hmark⟩
  | member name =>
    cases label' <;> try cases hctor
    obtain ⟨hname, hmark⟩ := name_append_inj h.legible h'.legible
      (List.cons.inj (List.cons.inj hrest).2).2
    exact ⟨by rw [String.toList_inj.mp hname], h.flags_eq h' rfl rfl hmark⟩
  | number value =>
    cases label' <;> try cases hctor
    obtain ⟨m, rfl⟩ := h.legible
    obtain ⟨n, rfl⟩ := h'.legible
    obtain ⟨hnumber, hmark⟩ := name_append_inj (isWord_int m) (isWord_int n) (List.cons.inj hrest).2
    exact ⟨by rw [int_of_text (String.toList_inj.mp hnumber)], h.flags_eq h' rfl rfl hmark⟩
  | unary op =>
    cases label' <;> try cases hctor
    obtain ⟨hop, hmark⟩ := name_append_inj (isWord_unary _) (isWord_unary _) (List.cons.inj hrest).2
    exact ⟨by rw [unary_of_symbol (String.toList_inj.mp hop)], h.flags_eq h' rfl rfl hmark⟩
  | binary op =>
    cases label' <;> try cases hctor
    obtain ⟨hop, hmark⟩ := name_append_inj (isWord_binary _) (isWord_binary _)
      (List.cons.inj hrest).2
    exact ⟨by rw [binary_of_symbol (String.toList_inj.mp hop)], h.flags_eq h' rfl rfl hmark⟩
  | string text | load text =>
    cases label' <;> try cases hctor
    obtain ⟨rfl, hmark⟩ := quotedText_append_inj hrest
    exact ⟨rfl, h.flags_eq h' rfl rfl hmark⟩
  | struct name =>
    cases label' <;> try cases hctor
    obtain ⟨text, rfl, htext⟩ := h.legible
    obtain ⟨text', rfl, htext'⟩ := h'.legible
    obtain ⟨hname, hmark⟩ := name_append_inj htext htext' (List.cons.inj hrest).2
    exact ⟨by rw [String.toList_inj.mp hname], h.flags_eq h' rfl rfl hmark⟩
  | function name library =>
    cases label' <;> try cases hctor
    exact function_inj h h' hrest
  | _ =>
    cases label' <;> try cases hctor
    exact ⟨rfl, h.flags_eq h' rfl rfl hrest⟩

/-! ### Lines of a text -/

/-- A text that fills one line and is not indented. -/
structure FillsLine (text : List Char) : Prop where
  lineFeed : '\n' ∉ text
  head : text.head? ≠ some ' '

theorem lineFeed_notMem_mark (flags : Flags) : '\n' ∉ mark flags := by
  rcases mark_cases flags with h | h <;> simp [h, parenMark]

theorem lineFeed_notMem_quotedText {text : String} (h : '\n' ∉ text.toList) :
    '\n' ∉ quotedText text := by
  simpa [quotedText] using h

theorem lineFeed_notMem_extras {library : Option String}
    (h : ∀ path ∈ library, '\n' ∉ path.toList) : '\n' ∉ extras flags library := by
  have hforeign : '\n' ∉ foreignMark library := by
    cases library with
    | none => simp [foreignMark]
    | some path => simpa [foreignMark] using lineFeed_notMem_quotedText (h path rfl)
  unfold extras
  rw [List.mem_append, not_or]
  constructor
  · split_ifs <;> simp [hforeign]
  · split_ifs <;> simp [variadicMark]

theorem Legible.lineFeed_notMem (h : label.Legible) : '\n' ∉ label.detail flags := by
  cases label with
  | identifier | namedType | const | var | member => simpa [detail] using h.2
  | number value =>
    obtain ⟨n, rfl⟩ := h
    simpa [detail] using (isWord_int n).2
  | unary op => simpa [detail] using (isWord_unary op).2
  | binary op => simpa [detail] using (isWord_binary op).2
  | string | load => exact lineFeed_notMem_quotedText h
  | struct name =>
    obtain ⟨text, rfl, htext⟩ := h
    simpa [detail, spaced] using htext.2
  | function name library =>
    obtain ⟨⟨text, rfl, htext⟩, hlibrary⟩ := h
    simpa [detail, spaced] using ⟨htext.2, lineFeed_notMem_extras hlibrary⟩
  | _ => simp [detail]

theorem Proper.fillsLine (h : label.Proper flags) : FillsLine (label.line flags) where
  lineFeed := by
    rw [line, List.mem_append, List.mem_append, not_or, not_or]
    exact ⟨(isWord_word label).2, h.legible.lineFeed_notMem, lineFeed_notMem_mark flags⟩
  head := by
    have hwords : ∀ word ∈ words, word.toList ≠ [] := by decide
    have hword := hwords _ (List.mem_of_getElem? label.words_getElem?)
    rw [line, List.head?_append_of_ne_nil _ hword]
    exact fun hblank => (isWord_word label).1 (List.mem_of_head? hblank)

end Label

end MicroCompiler.Ast
