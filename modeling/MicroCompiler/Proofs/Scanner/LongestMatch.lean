import MicroCompiler.Proofs.Scanner.Characters
import MicroCompiler.Proofs.Scanner.Checks

/-! The scanner takes the longest lexeme. The lexical grammar says which byte strings are lexemes of
which kind, one kind at a time and with no word about what comes first or what follows. The scanner
looks at the first byte and then goes on as far as one class of lexemes allows. That gives the
longest lexeme of all kinds, because the first byte tells the classes apart. A number sign with a
name that is no directive is the one case where it gives no lexeme although one is there. -/

namespace MicroCompiler.Token

/-! ### The lexical grammar -/

/-- What stands between the quotes of a string literal: bytes other than quotes, backslashes and
line feeds, and escapes. -/
inductive IsLiteralBody : List UInt8 → Prop where
  | nil : IsLiteralBody []
  | plain {b : UInt8} {body : List UInt8} : b ∉ [quoteByte, backslashByte, lineFeedByte] →
    IsLiteralBody body → IsLiteralBody (b :: body)
  | escape {c : UInt8} {body : List UInt8} : isEscape c → IsLiteralBody body →
    IsLiteralBody (backslashByte :: c :: body)

/-- Digits, and maybe a point with digits behind it. -/
inductive IsNumeral : List UInt8 → Prop where
  | whole {digits : List UInt8} : digits ≠ [] → (∀ d ∈ digits, isDigit d) → IsNumeral digits
  | fraction {digits more : List UInt8} : digits ≠ [] → (∀ d ∈ digits, isDigit d) → more ≠ [] →
    (∀ d ∈ more, isDigit d) → IsNumeral (digits ++ dotByte :: more)

/-- The lexemes of each kind. A fixed lexeme is the spelling of its kind. -/
inductive IsLexeme : Kind → List UInt8 → Prop where
  | fixed {kind : Kind} {spelling : String} : kind.spelling? = some spelling →
    IsLexeme kind (Source.ofString spelling).bytes
  | name {b : UInt8} {rest : List UInt8} : isNameStart b → (∀ c ∈ rest, isNamePart c) →
    (∀ kind ∈ Kind.keywords, kind.spellingBytes ≠ b :: rest) → IsLexeme .identifier (b :: rest)
  | number {numeral : List UInt8} : IsNumeral numeral → IsLexeme .number numeral
  | literal {body : List UInt8} : IsLiteralBody body → IsLexeme .string
    (quoteByte :: body ++ [quoteByte])

/-- A lexeme of the kind begins the bytes, and no lexeme of any kind that begins them is longer. -/
structure IsLongest (bytes : List UInt8) (kind : Kind) (lexeme : List UInt8) : Prop where
  isLexeme : IsLexeme kind lexeme
  begins : lexeme <+: bytes
  longest : ∀ kind' lexeme', IsLexeme kind' lexeme' → lexeme' <+: bytes →
    lexeme'.length ≤ lexeme.length

/-- The classes of bytes that lexemes are made of, each byte in them spelled out. -/
theorem byteClasses_eq (b : UInt8) :
    isNameStart b = (Source.ofString
        "ABCDEFGHIJKLMNOPQRSTUVWXYZ_abcdefghijklmnopqrstuvwxyz").bytes.contains b ∧
      isDigit b = (Source.ofString "0123456789").bytes.contains b ∧
      isNamePart b = (isNameStart b || isDigit b) ∧
      isEscape b = (Source.ofString "abrntv\\\"'0").bytes.contains b := by
  have hall : ∀ n : Fin 256,
      isNameStart (.ofFin n) = (Source.ofString
          "ABCDEFGHIJKLMNOPQRSTUVWXYZ_abcdefghijklmnopqrstuvwxyz").bytes.contains (.ofFin n) ∧
        isDigit (.ofFin n) = (Source.ofString "0123456789").bytes.contains (.ofFin n) ∧
        isEscape (.ofFin n) = (Source.ofString "abrntv\\\"'0").bytes.contains (.ofFin n) := by
    decide +kernel
  exact ⟨(hall b.toFin).1, (hall b.toFin).2.1, rfl, (hall b.toFin).2.2⟩

variable {kind kind' : Kind} {b : UInt8} {bytes rest word word' after : List UInt8}

/-! ### The classes of lexemes -/

theorem isNameStart_of_isDigit : ∀ b : UInt8, isDigit b → isNameStart b = false :=
  forall_byte (by decide +kernel)

theorem Kind.spelling_cases {spelling : String} (h : kind.spelling? = some spelling) :
    (Source.ofString spelling).bytes = kind.spellingBytes ∧
      (kind ∈ Kind.keywords ∨ kind ∈ Kind.directives ∨ kind ∈ Kind.symbols) := by
  refine ⟨by rw [Kind.spellingBytes, h]; rfl, ?_⟩
  cases kind <;> cases h <;> decide

theorem Kind.keywords_named : ∀ k ∈ Kind.keywords, (∃ c ∈ k.spellingBytes.head?, isNameStart c) ∧
    ∀ c ∈ k.spellingBytes, isNamePart c := by
  simp only [← List.all_eq_true]
  decide

theorem Kind.directives_named : ∀ k ∈ Kind.directives, k.spellingBytes.head? = some hashByte ∧
    (∃ c ∈ k.spellingBytes.tail.head?, isNameStart c) ∧ ∀ c ∈ k.spellingBytes.tail,
    isNamePart c := by
  simp only [← List.all_eq_true]
  decide

theorem Kind.symbols_set_apart : ∀ k ∈ Kind.symbols, ∃ c ∈ k.spellingBytes.head?,
    isNameStart c = false ∧ isDigit c = false ∧ c ≠ quoteByte ∧ c ≠ hashByte := by decide

theorem IsNumeral.head (h : IsNumeral word) : ∃ d ∈ word.head?, isDigit d := by
  cases h with
  | whole hne hdigits =>
    exact ⟨word.head hne, List.head?_eq_some_head hne, hdigits _ (List.head_mem hne)⟩
  | @fraction digits more hne hdigits =>
    refine ⟨digits.head hne, ?_, hdigits _ (List.head_mem hne)⟩
    rw [List.head?_append_of_ne_nil _ hne, List.head?_eq_some_head hne]
    rfl

/-- What the first byte of a lexeme says about its kind and its rest. -/
def Classed (b : UInt8) (rest : List UInt8) (kind : Kind) : Prop :=
  if isNameStart b then (∀ c ∈ rest, isNamePart c) ∧
    (kind ∈ Kind.keywords ∧ kind.spellingBytes = b :: rest ∨
      kind = .identifier ∧ ∀ kind ∈ Kind.keywords, kind.spellingBytes ≠ b :: rest)
  else if isDigit b then kind = .number ∧ IsNumeral (b :: rest)
  else if b = quoteByte then kind = .string ∧ ∃ body, IsLiteralBody body ∧
    rest = body ++ [quoteByte]
  else if b = hashByte then kind ∈ Kind.directives ∧ kind.spellingBytes = b :: rest
  else kind ∈ Kind.symbols ∧ kind.spellingBytes = b :: rest

theorem IsLexeme.class (h : IsLexeme kind word) :
    ∃ b rest, word = b :: rest ∧ Classed b rest kind := by
  cases h with
  | fixed hspelling =>
    obtain ⟨hbytes, hkind⟩ := Kind.spelling_cases hspelling
    rw [hbytes]
    rcases hkind with hkind | hkind | hkind
    · obtain ⟨⟨b, hb, hstart⟩, hparts⟩ := Kind.keywords_named kind hkind
      obtain ⟨rest, hrest⟩ := List.head?_eq_some_iff.mp hb
      rw [hrest, List.forall_mem_cons] at hparts
      refine ⟨b, rest, hrest, ?_⟩
      rw [Classed, if_pos hstart]
      exact ⟨hparts.2, .inl ⟨hkind, hrest⟩⟩
    · obtain ⟨rest, hrest⟩ := List.head?_eq_some_iff.mp (Kind.directives_named kind hkind).1
      exact ⟨hashByte, rest, hrest, hkind, hrest⟩
    · obtain ⟨b, hb, hstart, hdigit, hquote, hhash⟩ := Kind.symbols_set_apart kind hkind
      obtain ⟨rest, hrest⟩ := List.head?_eq_some_iff.mp hb
      refine ⟨b, rest, hrest, ?_⟩
      rw [Classed, hstart, hdigit, if_neg hquote, if_neg hhash]
      exact ⟨hkind, hrest⟩
  | @name b rest hb hrest hword =>
    refine ⟨b, rest, rfl, ?_⟩
    rw [Classed, if_pos hb]
    exact ⟨hrest, .inr ⟨rfl, hword⟩⟩
  | number hnumeral =>
    obtain ⟨b, hb, hdigit⟩ := hnumeral.head
    obtain ⟨rest, rfl⟩ := List.head?_eq_some_iff.mp hb
    refine ⟨b, rest, rfl, ?_⟩
    rw [Classed, isNameStart_of_isDigit b hdigit, if_pos hdigit]
    exact ⟨rfl, hnumeral⟩
  | @literal body hbody => exact ⟨quoteByte, body ++ [quoteByte], rfl, rfl, body, hbody, rfl⟩

/-- The first byte of the bytes that a lexeme begins tells its class. -/
theorem IsLexeme.class_of_begins (h : IsLexeme kind word) (hbegins : word <+: b :: rest) :
    ∃ tail, word = b :: tail ∧ tail <+: rest ∧ Classed b tail kind := by
  obtain ⟨c, tail, rfl, hclass⟩ := h.class
  obtain ⟨rfl, htail⟩ := List.cons_prefix_cons.mp hbegins
  exact ⟨tail, rfl, htail, hclass⟩

theorem Kind.spellingBytes_injective : ∀ k ∈ Kind.keywords ++ Kind.directives ++ Kind.symbols,
    ∀ k' ∈ Kind.keywords ++ Kind.directives ++ Kind.symbols, k.spellingBytes = k'.spellingBytes →
    k = k' := by
  decide +kernel

/-- A lexeme has one kind. -/
theorem IsLexeme.kind_unique (h : IsLexeme kind word) (h' : IsLexeme kind' word) :
    kind = kind' := by
  have hfixed {k k' : Kind} {kinds : List Kind} (hsub : kinds ⊆ Kind.keywords ++
    Kind.directives ++ Kind.symbols)
      (hk : k ∈ kinds ∧ k.spellingBytes = word) (hk' : k' ∈ kinds ∧
      k'.spellingBytes = word) : k = k' :=
    Kind.spellingBytes_injective k (hsub hk.1) k' (hsub hk'.1) (hk.2.trans hk'.2.symm)
  obtain ⟨b, rest, rfl, hclass⟩ := h.class
  obtain ⟨_, heq, -, hclass'⟩ := h'.class_of_begins (List.prefix_refl (b :: rest))
  obtain rfl := (List.cons.inj heq).2
  unfold Classed at hclass hclass'
  split_ifs at hclass hclass'
  · rcases hclass.2 with hkeyword | ⟨rfl, hother⟩ <;> rcases hclass'.2 with hkeyword' |
      ⟨rfl, hother'⟩
    · exact hfixed (by simp) hkeyword hkeyword'
    · exact absurd hkeyword.2 (hother' kind hkeyword.1)
    · exact absurd hkeyword'.2 (hother kind' hkeyword'.1)
    · rfl
  · exact hclass.1.trans hclass'.1.symm
  · exact hclass.1.trans hclass'.1.symm
  · exact hfixed (by simp) hclass hclass'
  · exact hfixed (by simp) hclass hclass'

theorem IsLongest.unique (h : IsLongest bytes kind word) (h' : IsLongest bytes kind' word') :
    kind = kind' ∧ word = word' := by
  have hlength := Nat.le_antisymm (h'.longest _ _ h.isLexeme h.begins)
    (h.longest _ _ h'.isLexeme h'.begins)
  obtain rfl := (List.prefix_of_prefix_length_le h.begins h'.begins hlength.le).eq_of_length hlength
  exact ⟨h.isLexeme.kind_unique h'.isLexeme, rfl⟩

/-! ### The scanner finds the longest lexeme -/

theorem length_le_takeWhile {p : UInt8 → Bool} (h : word <+: bytes) (hall : ∀ c ∈ word, p c) :
    word.length ≤ (bytes.takeWhile p).length := by
  obtain ⟨after, rfl⟩ := h
  rw [List.takeWhile_append_of_pos hall, List.length_append]
  exact Nat.le_add_right _ _

theorem isLexeme_spelling (h : kind ∈ Kind.keywords ++ Kind.directives ++ Kind.symbols) :
    IsLexeme kind kind.spellingBytes := by
  have hspelled : ∀ k ∈ Kind.keywords ++ Kind.directives ++ Kind.symbols, k.spelling?.isSome := by
    decide
  obtain ⟨spelling, hspelling⟩ := Option.isSome_iff_exists.mp (hspelled kind h)
  rw [← (Kind.spelling_cases hspelling).1]
  exact .fixed hspelling

/-- The scanner reports the longest lexeme that begins the bytes. -/
def Lexeme.Longest (lex : Lexeme) (bytes : List UInt8) : Prop :=
  lex.skip = 0 ∧ ∃ word, IsLongest bytes lex.kind word ∧ lex.length = word.length

theorem wordLexeme_longest (hb : isNameStart b) : (wordLexeme (b :: rest)).Longest (b :: rest) := by
  have htake : (b :: rest).takeWhile isNamePart = b :: rest.takeWhile isNamePart := by
    simp [isNamePart, hb]
  refine ⟨rfl, (b :: rest).takeWhile isNamePart, ⟨?_, List.takeWhile_prefix _, ?_⟩, rfl⟩
  · simp only [wordLexeme]
    cases hfind : Kind.keywords.find? (·.spellingBytes == (b :: rest).takeWhile isNamePart) with
    | some k =>
      have hspelling : k.spellingBytes = (b :: rest).takeWhile isNamePart := by
        simpa using List.find?_some hfind
      rw [← hspelling]
      exact isLexeme_spelling (by simp [List.mem_of_find?_eq_some hfind])
    | none =>
      rw [htake] at hfind ⊢
      exact .name hb (fun c hc => List.mem_takeWhile_imp hc) (by simpa using hfind)
  · intro kind' word' h' hbegins
    obtain ⟨tail, rfl, htail, hclass⟩ := h'.class_of_begins hbegins
    rw [Classed, if_pos hb] at hclass
    rw [htake, List.length_cons, List.length_cons]
    exact Nat.succ_le_succ (length_le_takeWhile htail hclass.1)

/-- A numeral that begins bytes ends with the digits there, or with those behind a point that
follows them. -/
theorem IsNumeral.length_le (h : IsNumeral word) (hbegins : word <+: bytes) :
    word.length ≤ (bytes.takeWhile isDigit).length ∨
      ∃ behind, bytes.drop (bytes.takeWhile isDigit).length = dotByte :: behind ∧
        behind.takeWhile isDigit ≠ [] ∧ word.length ≤ (bytes.takeWhile isDigit).length + 1 +
        (behind.takeWhile isDigit).length := by
  cases h with
  | whole hne hdigits => exact .inl (length_le_takeWhile hbegins hdigits)
  | @fraction digits more hne hdigits hmore hdigits' =>
    obtain ⟨after, rfl⟩ := hbegins
    have htake : (digits ++ dotByte :: more ++ after).takeWhile isDigit = digits := by
      rw [List.append_assoc, List.takeWhile_append_of_pos hdigits, List.cons_append,
        List.takeWhile_cons_of_neg (by decide), List.append_nil]
    have hbehind : (more ++ after).takeWhile isDigit = more ++ after.takeWhile isDigit :=
      List.takeWhile_append_of_pos hdigits'
    refine .inr ⟨more ++ after, ?_, ?_, ?_⟩
    · rw [htake, List.append_assoc, List.drop_left, List.cons_append]
    · simp [hbehind, hmore]
    · rw [htake, hbehind]
      simp only [List.length_append, List.length_cons]
      omega

theorem numberLexeme_longest (hb : isDigit b) : (numberLexeme (b :: rest)).Longest (b :: rest) := by
  have hne : (b :: rest).takeWhile isDigit ≠ [] := by simp [hb]
  have hdigits : ∀ d ∈ (b :: rest).takeWhile isDigit, isDigit d :=
    fun d hd => List.mem_takeWhile_imp hd
  have hbegins : (b :: rest).takeWhile isDigit <+: b :: rest := List.takeWhile_prefix _
  have hnumeral {kind' : Kind} {word' : List UInt8} (h' : IsLexeme kind' word') (hbegins' :
    word' <+: b :: rest) :
      IsNumeral word' := by
    obtain ⟨tail, rfl, -, hclass⟩ := h'.class_of_begins hbegins'
    rw [Classed, isNameStart_of_isDigit b hb, if_pos hb] at hclass
    exact hclass.2
  have hlength {kind' : Kind} {word' : List UInt8} (h' : IsLexeme kind' word') (hbegins' : word' <+:
      b :: rest) :=
    (hnumeral h' hbegins').length_le hbegins'
  clear hnumeral
  generalize b :: rest = bytes at *
  simp only [numberLexeme]
  generalize bytes.takeWhile isDigit = whole at *
  have hsplit : whole ++ bytes.drop whole.length = bytes := List.prefix_iff_eq_append.mp hbegins
  split
  next point behind hdrop =>
    rw [hdrop] at hsplit hlength
    split_ifs with hpoint
    · obtain ⟨rfl, hmore⟩ := hpoint
      have hmore' : behind.takeWhile isDigit ≠ [] := fun hnil => hmore (by rw [hnil]; rfl)
      refine ⟨rfl, whole ++ dotByte :: behind.takeWhile isDigit,
        ⟨.number (.fraction hne hdigits hmore' fun d hd => List.mem_takeWhile_imp hd), ?_, ?_⟩, ?_⟩
      · rw [← hsplit]
        exact (List.prefix_append_right_inj whole).mpr (List.cons_prefix_cons.mpr ⟨rfl,
          List.takeWhile_prefix _⟩)
      · intro kind' word' h' hbegins'
        rw [List.length_append, List.length_cons]
        rcases hlength h' hbegins' with hle | ⟨behind', hdrop', -, hle⟩
        · omega
        · obtain ⟨-, rfl⟩ := List.cons.inj hdrop'
          omega
      · simp only [List.length_append, List.length_cons]
        omega
    · refine ⟨rfl, whole, ⟨.number (.whole hne hdigits), hbegins, ?_⟩, rfl⟩
      intro kind' word' h' hbegins'
      rcases hlength h' hbegins' with hle | ⟨behind', hdrop', hmore, -⟩
      · exact hle
      · obtain ⟨rfl, rfl⟩ := List.cons.inj hdrop'
        exact absurd ⟨rfl, by simpa using hmore⟩ hpoint
  next hdrop =>
    refine ⟨rfl, whole, ⟨.number (.whole hne hdigits), hbegins, ?_⟩, rfl⟩
    intro kind' word' h' hbegins'
    rcases hlength h' hbegins' with hle | ⟨behind', hdrop', -, -⟩
    · exact hle
    · simp [hdrop] at hdrop'

theorem stringLexeme_quote (read : Nat) (after : List UInt8) :
    stringLexeme read (quoteByte :: after) = ⟨.string, 0, read + 1⟩ := by
  rw [stringLexeme.eq_def]
  rfl

theorem stringLexeme_plain (hb : b ∉ [quoteByte, backslashByte, lineFeedByte]) (read : Nat)
    (rest : List UInt8) : stringLexeme read (b :: rest) = stringLexeme (read + 1) rest := by
  simp only [List.mem_cons, List.not_mem_nil, or_false, not_or] at hb
  rw [stringLexeme.eq_def]
  simp only [hb, if_false]

theorem stringLexeme_plains {body : List UInt8}
    (h : ∀ b ∈ body, b ∉ [quoteByte, backslashByte, lineFeedByte]) (read : Nat)
    (rest : List UInt8) :
    stringLexeme read (body ++ rest) = stringLexeme (read + body.length) rest := by
  induction body generalizing read with
  | nil => rfl
  | cons b body ih =>
    rw [List.forall_mem_cons] at h
    rw [List.cons_append, stringLexeme_plain h.1, ih h.2, List.length_cons,
      Nat.add_assoc, Nat.add_comm 1]

theorem stringLexeme_escape {c : UInt8} (hc : isEscape c) (read : Nat) (after : List UInt8) :
    stringLexeme read (backslashByte :: c :: after) = stringLexeme (read + 2) after := by
  have hfeed : c ≠ lineFeedByte := by
    rintro rfl
    exact absurd hc (by decide)
  rw [stringLexeme, if_neg (by decide), if_neg (by decide), if_pos rfl, if_neg hfeed, if_pos hc]

/-- A literal is read up to its closing quote. -/
theorem stringLexeme_literal {body : List UInt8} (h : IsLiteralBody body) (read : Nat)
    (after : List UInt8) : stringLexeme read (body ++ quoteByte :: after) =
    ⟨.string, 0, read + body.length + 1⟩ := by
  induction h generalizing read with
  | nil => exact stringLexeme_quote read after
  | @plain b body hb hbody ih =>
    rw [List.cons_append, stringLexeme_plain hb, ih, List.length_cons, Nat.add_right_comm read 1,
      Nat.add_assoc read]
  | @escape c body hc hbody ih =>
    rw [List.cons_append, List.cons_append, stringLexeme_escape hc, ih, List.length_cons,
      List.length_cons, Nat.add_right_comm read 2, Nat.add_assoc read]

theorem isLiteralBody_of_stringLexeme (read : Nat) (bytes : List UInt8)
    (h : (stringLexeme read bytes).kind.isError = false) :
    ∃ body after, IsLiteralBody body ∧ bytes = body ++ quoteByte :: after := by
  fun_induction stringLexeme read bytes with
  | case2 read rest => exact ⟨[], rest, .nil, rfl⟩
  | case6 read c after hline hescape hquote hback ih =>
    obtain ⟨body, behind, hbody, rfl⟩ := ih h
    exact ⟨backslashByte :: c :: body, behind, .escape hescape hbody, rfl⟩
  | case8 read b rest hquote hfeed hback ih =>
    obtain ⟨body, behind, hbody, rfl⟩ := ih h
    exact ⟨b :: body, behind, .plain (by simp [hquote, hfeed, hback]) hbody, rfl⟩
  | _ => cases h

/-- A literal ends at its closing quote, so one literal does not begin another one. -/
theorem literal_longest {body : List UInt8} (hbody : IsLiteralBody body) (after : List UInt8) :
    IsLongest (quoteByte :: body ++ [quoteByte] ++ after) .string
    (quoteByte :: body ++ [quoteByte]) := by
  refine ⟨.literal hbody, List.prefix_append _ _, fun kind' word' h' hbegins => ?_⟩
  obtain ⟨tail, rfl, ⟨behind, htail⟩, -, body', hbody', rfl⟩ := h'.class_of_begins hbegins
  have hsame : stringLexeme 1 (body' ++ quoteByte :: behind) = stringLexeme 1 (body ++ quoteByte ::
      after) := by
    simpa using congrArg (stringLexeme 1) htail
  rw [stringLexeme_literal hbody, stringLexeme_literal hbody'] at hsame
  have hlength := congrArg Lexeme.length hsame
  simp only [List.cons_append, List.length_cons, List.length_append] at hlength ⊢
  omega

theorem stringLexeme_longest (h : (stringLexeme 1 rest).kind.isError = false) :
    (stringLexeme 1 rest).Longest (quoteByte :: rest) := by
  obtain ⟨body, after, hbody, rfl⟩ := isLiteralBody_of_stringLexeme 1 rest h
  rw [stringLexeme_literal hbody]
  refine ⟨rfl, quoteByte :: body ++ [quoteByte], by simpa using literal_longest hbody after, ?_⟩
  simp only [List.cons_append, List.length_cons, List.length_append, List.length_nil]
  omega

theorem directiveLexeme_longest (h : (directiveLexeme rest).kind.isError = false) :
    (directiveLexeme rest).Longest (hashByte :: rest) := by
  simp only [directiveLexeme] at h ⊢
  split_ifs at h ⊢
  · refine ⟨rfl, hashByte :: rest.takeWhile isNamePart, ⟨?_, ?_, ?_⟩, Nat.add_comm _ _⟩
    · cases hfind : Kind.directives.find? (·.spellingBytes == hashByte ::
        rest.takeWhile isNamePart) with
      | some k =>
        have hspelling : k.spellingBytes = hashByte :: rest.takeWhile isNamePart := by
          simpa using List.find?_some hfind
        rw [← hspelling]
        exact isLexeme_spelling (by simp [List.mem_of_find?_eq_some hfind])
      | none =>
        rw [hfind] at h
        cases h
    · exact List.cons_prefix_cons.mpr ⟨rfl, List.takeWhile_prefix _⟩
    · intro kind' word' h' hbegins
      obtain ⟨tail, rfl, htail, hkind, hspelling⟩ := h'.class_of_begins hbegins
      have hparts := (Kind.directives_named kind' hkind).2.2
      rw [hspelling, List.tail_cons] at hparts
      exact Nat.succ_le_succ (length_le_takeWhile htail hparts)
  · cases h

/-- A spelling stands before every spelling that begins it. -/
theorem Kind.symbols_ordered : Kind.symbols.Pairwise fun k k' =>
    k.spellingBytes <+: k'.spellingBytes → k'.spellingBytes.length ≤ k.spellingBytes.length := by
  decide +kernel

theorem symbolLexeme_longest (hname : isNameStart b = false) (hdigit : isDigit b = false)
    (hquote : b ≠ quoteByte) (hhash : b ≠ hashByte)
    (h : (symbolLexeme (b :: rest)).kind.isError = false) :
    (symbolLexeme (b :: rest)).Longest (b :: rest) := by
  unfold symbolLexeme at h ⊢
  split at h
  next kind hfind =>
    obtain ⟨hbegins, before, behind, hsplit, hbefore⟩ := List.find?_eq_some_iff_append.mp hfind
    rw [List.isPrefixOf_iff_prefix] at hbegins
    refine ⟨rfl, kind.spellingBytes, ⟨?_, hbegins, ?_⟩, rfl⟩
    · exact isLexeme_spelling (by simp [List.mem_of_find?_eq_some hfind])
    · intro kind' word' h' hbegins'
      obtain ⟨tail, rfl, -, hclass⟩ := h'.class_of_begins hbegins'
      rw [Classed, hname, hdigit, if_neg hquote, if_neg hhash] at hclass
      obtain ⟨hmem, hspelling⟩ := hclass
      rw [← hspelling] at hbegins' ⊢
      have hordered := Kind.symbols_ordered
      rw [hsplit] at hmem hordered
      rcases List.mem_append.mp hmem with hmem | hmem
      · have hfails := hbefore kind' hmem
        rw [List.isPrefixOf_iff_prefix.mpr hbegins'] at hfails
        cases hfails
      · rcases List.mem_cons.mp hmem with rfl | hmem
        · exact le_rfl
        · by_contra hlt
          have hlater := (List.pairwise_cons.mp (List.pairwise_append.mp hordered).2.1).1 kind' hmem
          exact hlt (hlater (List.prefix_of_prefix_length_le hbegins hbegins'
            (Nat.le_of_not_le hlt)))
  next => cases h

theorem lexeme_longest (h : (lexeme bytes).kind.isError = false)
    (heof : (lexeme bytes).kind ≠ .eof) : (lexeme bytes).Longest bytes := by
  cases bytes with
  | nil => exact absurd rfl heof
  | cons b rest =>
    simp only [lexeme] at h ⊢
    split_ifs at h ⊢ with hname hdigit hquote hhash
    · exact wordLexeme_longest hname
    · exact numberLexeme_longest hdigit
    · subst hquote
      exact stringLexeme_longest h
    · subst hhash
      exact directiveLexeme_longest h
    · exact symbolLexeme_longest (by simpa using hname) (by simpa using hdigit) hquote hhash h

/-! ### The longest lexeme is found -/

theorem IsLexeme.proper (h : IsLexeme kind word) : kind.isError = false ∧ kind ≠ .eof := by
  cases h with
  | @fixed kind spelling hspelling => cases kind <;> cases hspelling <;> decide
  | name => decide
  | number => decide
  | literal => decide

theorem Lexeme.Longest.proper {lex : Lexeme} (h : lex.Longest bytes) :
    lex.kind.isError = false := by
  obtain ⟨-, word, hword, -⟩ := h
  exact hword.isLexeme.proper.1

theorem takeWhile_append_stop {p : UInt8 → Bool} (hall : ∀ c ∈ word, p c)
    (hstop : ∀ c ∈ after.head?, p c = false) : (word ++ after).takeWhile p = word := by
  rw [List.takeWhile_append_of_pos hall]
  cases after with
  | nil => simp
  | cons c after => simp [hstop c rfl]

theorem directiveLexeme_spelling (hkind : kind ∈ Kind.directives)
    (hspelling : kind.spellingBytes = hashByte :: word)
    (hafter : ∀ c ∈ after.head?, isNamePart c = false) :
    (directiveLexeme (word ++ after)).kind.isError = false := by
  obtain ⟨-, ⟨c, hc, hstart⟩, hparts⟩ := Kind.directives_named kind hkind
  rw [hspelling, List.tail_cons] at hc hparts
  simp only [directiveLexeme]
  rw [takeWhile_append_stop hparts hafter, if_pos (by rw [hc]; exact hstart)]
  cases hfind : Kind.directives.find? (·.spellingBytes == hashByte :: word) with
  | some k => exact (isLexeme_spelling (by simp [List.mem_of_find?_eq_some hfind])).proper.1
  | none =>
    rw [List.find?_eq_none] at hfind
    exact absurd (beq_iff_eq.mpr hspelling) (hfind kind hkind)

theorem symbolLexeme_spelling (hkind : kind ∈ Kind.symbols)
    (hbegins : kind.spellingBytes <+: bytes) : (symbolLexeme bytes).kind.isError = false := by
  unfold symbolLexeme
  split
  next k hfind => exact (isLexeme_spelling (by simp [List.mem_of_find?_eq_some hfind])).proper.1
  next hfind =>
    rw [List.find?_eq_none] at hfind
    exact absurd (List.isPrefixOf_iff_prefix.mpr hbegins) (hfind kind hkind)

/-- The longest lexeme that begins bytes is what the scanner finds there, but for a directive that a
longer name continues. -/
theorem IsLongest.lexeme_eq (h : IsLongest (word ++ after) kind word)
    (hafter : kind ∈ Kind.directives → ∀ c ∈ after.head?, isNamePart c = false) :
    lexeme (word ++ after) = ⟨kind, 0, word.length⟩ := by
  obtain ⟨b, rest, rfl, hclass⟩ := h.isLexeme.class
  have hproper : (lexeme (b :: (rest ++ after))).kind.isError = false := by
    simp only [lexeme, Classed] at hclass ⊢
    split_ifs at hclass ⊢ with hname hdigit hquote hhash
    · exact (wordLexeme_longest hname).proper
    · exact (numberLexeme_longest hdigit).proper
    · obtain ⟨-, body, hbody, rfl⟩ := hclass
      rw [List.append_assoc, List.singleton_append, stringLexeme_literal hbody]
      rfl
    · rw [hhash] at hclass
      exact directiveLexeme_spelling hclass.1 hclass.2 (hafter hclass.1)
    · exact symbolLexeme_spelling hclass.1 (hclass.2 ▸ ⟨after, rfl⟩)
  obtain ⟨hskip, word', hlongest, hlength⟩ := lexeme_longest hproper
    (lexeme_covers b (rest ++ after)).1
  obtain ⟨hkind, hword⟩ := h.unique hlongest
  rw [List.cons_append, hkind, hword, ← hskip, ← hlength]

/-! ### Behind gaps -/

/-- The bytes begin with a blank or with a comment. -/
def BeginsGap (bytes : List UInt8) : Prop :=
  (∃ b ∈ bytes.head?, isBlank b) ∨ [slashByte, slashByte] <+: bytes

theorem gapLength_eq_zero (h : ¬ BeginsGap bytes) : gapLength false bytes = 0 := by
  cases bytes with
  | nil => rfl
  | cons b rest =>
    rw [BeginsGap, not_or] at h
    have hblank : ¬ isBlank b := fun hb => h.1 ⟨b, rfl, hb⟩
    have hslashes : ¬ (b = slashByte ∧ rest.head? = some slashByte) := by
      rintro ⟨rfl, hhead⟩
      obtain ⟨tail, rfl⟩ := List.head?_eq_some_iff.mp hhead
      exact h.2 ⟨tail, rfl⟩
    rw [gapLength, if_neg hblank, if_neg hslashes]

/-- The scanner skips all gaps at the front. -/
theorem not_beginsGap_drop (bytes : List UInt8) :
    ¬ BeginsGap (bytes.drop (gapLength false bytes)) ∧
    ¬ BeginsGap (bytes.drop (gapLength true bytes)) := by
  induction bytes with
  | nil => simp [BeginsGap]
  | cons b rest ih =>
    obtain ⟨hgap, hcomment⟩ := ih
    constructor
    · simp only [gapLength]
      split_ifs with hblank hslashes
      · rwa [Nat.add_comm, List.drop_succ_cons]
      · rwa [Nat.add_comm, List.drop_succ_cons]
      · rintro (⟨c, hc, hb⟩ | ⟨tail, htail⟩)
        · obtain rfl : b = c := by simpa using hc
          exact hblank hb
        · obtain ⟨rfl, rfl⟩ := List.cons.inj htail
          exact hslashes ⟨rfl, rfl⟩
    · rw [gapLength, Nat.add_comm, List.drop_succ_cons]
      cases b != lineFeedByte with
      | true => exact hcomment
      | false => exact hgap

theorem gapLength_comment {text : List UInt8} (h : lineFeedByte ∉ text) (bytes : List UInt8) :
    gapLength true (text ++ bytes) = text.length + gapLength true bytes := by
  induction text with
  | nil => simp
  | cons b text ih =>
    rw [List.mem_cons, not_or] at h
    rw [List.cons_append, gapLength, bne_iff_ne.mpr (Ne.symm h.1), ih h.2, List.length_cons,
      Nat.add_comm 1, Nat.add_right_comm]

/-- A comment ends in front of its line feed, which is a blank. -/
theorem gapLength_lineFeed (h : ∀ b ∈ bytes.head?, b = lineFeedByte) :
    gapLength true bytes = gapLength false bytes := by
  cases bytes with
  | nil => rfl
  | cons b rest =>
    obtain rfl := h b rfl
    rfl

/-- A gap is skipped as a whole if none follows it. -/
theorem IsGap.gapLength_eq {gap : List UInt8} (h : IsGap after gap) (hafter : ¬ BeginsGap after) :
    gapLength false (gap ++ after) = gap.length := by
  induction h with
  | nil => exact gapLength_eq_zero hafter
  | @blank b gap hb hgap ih =>
    rw [List.cons_append, gapLength, if_pos (isBlank_of_mem_blanks hb), ih,
      List.length_cons, Nat.add_comm]
  | @comment text gap htext hend hgap ih =>
    have hslash : lineFeedByte ∉ slashByte :: text := by simpa using ⟨by decide, htext⟩
    rw [List.append_assoc, List.cons_append, gapLength, if_neg (by decide), if_pos ⟨rfl, rfl⟩,
      gapLength_comment hslash, gapLength_lineFeed hend, ih]
    simp only [List.cons_append, List.length_cons, List.length_append]
    omega

/-- Behind a gap the scanner sees the bytes that follow it. -/
theorem next_behind_gap {offset : Nat} {gap : List UInt8}
    (hbytes : bytes.drop offset = gap ++ after) (hgap : IsGap after gap)
    (hafter : ¬ BeginsGap after) :
    next bytes offset = ⟨(lexeme after).kind, offset + gap.length + (lexeme after).skip,
      offset + gap.length + (lexeme after).skip + (lexeme after).length⟩ := by
  simp only [next, hbytes, hgap.gapLength_eq hafter, List.drop_left]

theorem IsLexeme.begins_hash (h : IsLexeme kind word) (hkind : kind ∈ Kind.directives) :
    ∃ name, word = hashByte :: name := by
  cases h with
  | fixed hspelling =>
    rw [(Kind.spelling_cases hspelling).1]
    exact List.head?_eq_some_iff.mp (Kind.directives_named kind hkind).1
  | name => exact absurd hkind (by decide)
  | number => exact absurd hkind (by decide)
  | literal => exact absurd hkind (by decide)

/-- The scanner reads a directive up to the end of its name. -/
theorem Lexeme.Longest.stops (h : (lexeme bytes).Longest bytes)
    (hkind : (lexeme bytes).kind ∈ Kind.directives) :
    ∀ b ∈ bytes[(lexeme bytes).length]?, isNamePart b = false := by
  have hproper := h.proper
  obtain ⟨-, word, hlongest, -⟩ := h
  obtain ⟨name, rfl⟩ := hlongest.isLexeme.begins_hash hkind
  obtain ⟨after, rfl⟩ := hlongest.begins
  have hlexeme : lexeme (hashByte :: name ++ after) = directiveLexeme (name ++ after) := rfl
  rw [hlexeme] at hproper ⊢
  simp only [directiveLexeme] at hproper ⊢
  split_ifs at hproper ⊢
  · rw [Nat.add_comm, List.cons_append, List.getElem?_cons_succ]
    exact behind_takeWhile isNamePart (name ++ after)
  · cases hproper

/-- What stands in front of a well-formed token, in it and behind it. -/
theorem exists_longest_of_next {offset : Nat} (hproper : (next bytes offset).kind.isError = false)
    (heof : (next bytes offset).kind ≠ .eof) :
    ∃ gap word after, bytes.drop offset = gap ++ (word ++ after) ∧
      IsGap (word ++ after) gap ∧ ¬ BeginsGap (word ++ after) ∧
      (next bytes offset).span = ⟨offset + gap.length, offset + gap.length + word.length⟩ ∧
      IsLongest (word ++ after) (next bytes offset).kind word ∧
      ((next bytes offset).kind ∈ Kind.directives → ∀ b ∈ after.head?, isNamePart b = false) := by
  have hsplit := (List.take_append_drop (gapLength false (bytes.drop offset))
    (bytes.drop offset)).symm
  have hgap := (isGap_take (bytes.drop offset)).1
  have hfront := (not_beginsGap_drop (bytes.drop offset)).1
  generalize (bytes.drop offset).take (gapLength false (bytes.drop offset)) = gap at hsplit hgap
  generalize (bytes.drop offset).drop (gapLength false (bytes.drop offset)) = front
    at hsplit hgap hfront
  rw [next_behind_gap hsplit hgap hfront] at hproper heof ⊢
  have hfound := lexeme_longest hproper heof
  have hstops := hfound.stops
  obtain ⟨hskip, word, hlongest, hlength⟩ := hfound
  obtain ⟨after, rfl⟩ := hlongest.begins
  rw [hlength, List.getElem?_append_right le_rfl,
    Nat.sub_self, ← List.head?_eq_getElem?] at hstops
  exact ⟨gap, word, after, hsplit, hgap, hfront, by simp only [hskip, hlength, Nat.add_zero],
    hlongest, hstops⟩

/-- The scanner gives a token that is neither malformed nor the end of the file just if behind all
blanks and comments a lexeme of its kind stands, which is the token, and no lexeme of any kind that
stands there is longer. Behind a directive no name goes on. With its checks it gives the same, as
long as the token ends before the limit of offsets. -/
theorem next_eq_longest_iff (bytes : List UInt8) (offset : Nat) (kind : Kind) (span : Span) :
    (next bytes offset = ⟨kind, span⟩ ∧ kind.isError = false ∧ kind ≠ .eof ↔
      ∃ gap word after, bytes.drop offset = gap ++ (word ++ after) ∧
        IsGap (word ++ after) gap ∧ ¬ BeginsGap (word ++ after) ∧
        span = ⟨offset + gap.length, offset + gap.length + word.length⟩ ∧
        IsLongest (word ++ after) kind word ∧
        (kind ∈ Kind.directives → ∀ b ∈ after.head?, isNamePart b = false)) ∧
    (read bytes offset = .ok ⟨kind, span⟩ ↔
      span.stop < Span.limit ∧ next bytes offset = ⟨kind, span⟩) := by
  refine ⟨⟨?_, ?_⟩, read_eq_ok_iff⟩
  · rintro ⟨htoken, hproper, heof⟩
    have hnext := exists_longest_of_next (by rwa [htoken]) (by rwa [htoken])
    rwa [htoken] at hnext
  · rintro ⟨gap, word, after, hbytes, hgap, hafter, rfl, hlongest, hdirective⟩
    refine ⟨?_, hlongest.isLexeme.proper⟩
    rw [next_behind_gap hbytes hgap hafter, hlongest.lexeme_eq hdirective]
    rfl

example : (next (Source.ofString "#loads").bytes 0).kind = .unknownDirective := by decide +kernel

end MicroCompiler.Token
