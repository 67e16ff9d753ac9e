import MicroCompiler.Proofs.Results
import MicroCompiler.Proofs.TokenTiling
import MicroCompiler.Token.Read

/-! The checks of the scanner. It goes forward over bytes that are there, so every piece that it
cuts out is one, and no cut fails. What remains is the check of the ends: the scanner gives its
token just if that ends before the limit of offsets, and in a source below the limit it always
does. -/

namespace MicroCompiler

namespace Token

variable {bytes rest : List UInt8} {b : UInt8} {pos start : Nat}

/-! ### Positions and what is left -/

theorem byteAt_eq (bytes : List UInt8) (pos : Nat) :
    byteAt bytes pos = (bytes.drop pos).head?.getD 0 := by
  rw [byteAt, List.head?_drop]

theorem drop_succ_of_cons (h : bytes.drop pos = b :: rest) : bytes.drop (pos + 1) = rest := by
  rw [← List.drop_drop, h, List.drop_one, List.tail_cons]

theorem length_of_drop_cons (h : bytes.drop pos = b :: rest) :
    bytes.length = pos + 1 + rest.length := by
  have hlength := congrArg List.length h
  rw [List.length_drop, List.length_cons] at hlength
  omega

theorem exists_drop_cons (h : byteAt bytes pos ≠ 0) :
    ∃ rest, bytes.drop pos = byteAt bytes pos :: rest := by
  have hlt := lt_of_byteAt_ne h
  refine ⟨bytes.drop (pos + 1), ?_⟩
  rw [List.drop_eq_getElem_cons hlt, byteAt, List.getElem?_eq_getElem hlt, Option.getD_some]

/-! ### Gaps -/

/-- A comment ends in front of the line feed, which is a blank. -/
theorem gapLength_inComment (bytes : List UInt8) :
    gapLength true bytes = (bytes.takeWhile (· != lineFeedByte)).length +
      gapLength false (bytes.drop (bytes.takeWhile (· != lineFeedByte)).length) := by
  induction bytes with
  | nil => rfl
  | cons b rest ih =>
    by_cases hb : b = lineFeedByte
    · subst hb
      simp [gapLength, isBlank, lineFeedByte]
    · rw [List.takeWhile_cons_of_pos (by simpa using hb), List.length_cons, List.drop_succ_cons,
        gapLength, bne_iff_ne.mpr hb, ih]
      omega

theorem isBlank_ne_zero (h : isBlank b) : b ≠ 0 := by
  rintro rfl
  exact absurd h (by decide)

theorem eq_slash_ne_zero (h : b = slashByte) : b ≠ 0 := by
  rw [h]
  decide

theorem gapEnd_eq (bytes : List UInt8) (pos : Nat) :
    gapEnd bytes pos = .ok (pos + gapLength false (bytes.drop pos)) := by
  fun_induction gapEnd bytes pos with
  | case1 pos hblank ih =>
    obtain ⟨rest, hrest⟩ := exists_drop_cons (isBlank_ne_zero hblank)
    rw [ih, hrest, gapLength.eq_3, if_pos hblank, drop_succ_of_cons hrest, Nat.add_assoc]
  | case2 pos hblank hslash cut hcut ih =>
    obtain ⟨rest, hrest⟩ := exists_drop_cons (eq_slash_ne_zero hslash.1)
    obtain ⟨after, hafter⟩ := exists_drop_cons (eq_slash_ne_zero hslash.2)
    obtain rfl : bytes.drop pos = cut := by
      have hlength := length_of_drop_cons hrest
      rw [piece_rest (by omega)] at hcut
      exact Except.ok.inj hcut
    have hnext : rest.head? = some slashByte := by
      rw [← drop_succ_of_cons hrest, hafter, List.head?_cons, hslash.2]
    have hgap : gapLength false (bytes.drop pos) = gapLength true (bytes.drop pos) := by
      rw [hrest, gapLength.eq_3, if_neg hblank, if_pos ⟨hslash.1, hnext⟩, gapLength.eq_2, hslash.1]
      rfl
    rw [ih, hgap, gapLength_inComment, List.drop_drop, Nat.add_assoc]
  | case3 pos hblank hslash e hcut =>
    have hlt := lt_of_byteAt_ne (eq_slash_ne_zero hslash.1)
    rw [piece_rest (Nat.le_of_lt hlt)] at hcut
    cases hcut
  | case4 pos hblank hslash =>
    cases hrest : bytes.drop pos with
    | nil => rfl
    | cons b rest =>
      rw [byteAt_eq, hrest, byteAt_eq, drop_succ_of_cons hrest] at hslash
      rw [byteAt_eq, hrest, List.head?_cons, Option.getD_some] at hblank
      rw [gapLength.eq_3, if_neg hblank, if_neg, Nat.add_zero]
      rintro ⟨hb, hhead⟩
      exact hslash ⟨hb, by rw [hhead]; rfl⟩

/-! ### Lexemes -/

/-- The token that a lexeme is at a position. -/
def Lexeme.placed (lex : Lexeme) (pos : Nat) : Token :=
  ⟨lex.kind, pos + lex.skip, pos + lex.skip + lex.length⟩

/-- The bytes of a class are a piece. -/
theorem piece_runEnd (p : UInt8 → Bool) (h : pos ≤ bytes.length) :
    piece bytes pos (runEnd p bytes pos) = .ok ((bytes.drop pos).takeWhile p) := by
  have hprefix : (bytes.drop pos).takeWhile p <+: bytes.drop pos := List.takeWhile_prefix p
  have hle := hprefix.length_le
  rw [List.length_drop] at hle
  rw [runEnd, piece_ok (by omega) (by omega), Nat.add_sub_cancel_left,
    ← List.prefix_iff_eq_take.mp hprefix]

section

variable (h : bytes.drop start = b :: rest)

include h

theorem byteAt_of_drop_cons : byteAt bytes start = b := by
  rw [byteAt_eq, h, List.head?_cons, Option.getD_some]

theorem charEnd_eq : charEnd bytes start = start + charLength (b :: rest) := by
  rw [charEnd, runEnd, drop_succ_of_cons h, charLength, Nat.add_assoc]

theorem readWord_eq (hb : isNameStart b) :
    readWord bytes start = .ok ((wordLexeme (b :: rest)).placed start) := by
  have hlength := length_of_drop_cons h
  have hpart : isNamePart b := by rw [isNamePart, hb, Bool.true_or]
  have hstop : runEnd isNamePart bytes (start + 1) = runEnd isNamePart bytes start := by
    rw [runEnd, runEnd, drop_succ_of_cons h, h, List.takeWhile_cons_of_pos hpart, List.length_cons]
    omega
  simp only [readWord]
  rw [hstop, piece_runEnd _ (by omega), runEnd, h]
  rfl

theorem readDirective_eq :
    readDirective bytes start = .ok ((directiveLexeme rest).placed start) := by
  have hlength := length_of_drop_cons h
  have hrest := drop_succ_of_cons h
  have hhead : (rest.takeWhile isNamePart).head?.any isNameStart =
      isNameStart (byteAt bytes (start + 1)) := by
    rw [byteAt_eq, hrest]
    cases rest with
    | nil => rfl
    | cons c after =>
      cases hc : isNameStart c <;> cases hd : isDigit c <;>
        simp [isNamePart, hc, hd]
  simp only [readDirective, directiveLexeme, hhead]
  split_ifs
  · rw [piece_runEnd _ (by omega), runEnd, hrest, Nat.add_assoc]
    rfl
  · rfl

theorem readNumber_eq : readNumber bytes start = (numberLexeme (b :: rest)).placed start := by
  simp only [readNumber, numberLexeme, runEnd, h]
  generalize hwhole : ((b :: rest).takeWhile isDigit).length = whole
  have hdrop : bytes.drop (start + whole) = (b :: rest).drop whole := by rw [← h, List.drop_drop]
  rw [byteAt_eq, hdrop]
  cases hafter : (b :: rest).drop whole with
  | nil => rw [if_neg (by simp [dotByte])]; rfl
  | cons point fraction =>
    have hfraction := drop_succ_of_cons (hdrop.trans hafter)
    rw [byteAt_eq, hfraction, List.head?_cons, Option.getD_some]
    have hdigit : isDigit (fraction.head?.getD 0) = true ↔
        (fraction.takeWhile isDigit).length ≠ 0 := by
      cases fraction with
      | nil => simp [isDigit]
      | cons c after => cases hc : isDigit c <;> simp [hc]
    simp only [hdigit]
    split_ifs
    · simp [Lexeme.placed, Nat.add_assoc]
    · rfl

theorem readSymbol_eq : readSymbol bytes start = .ok ((symbolLexeme (b :: rest)).placed start) := by
  have hlength := length_of_drop_cons h
  simp only [readSymbol, symbolLexeme, charEnd_eq h, byteAt_of_drop_cons h,
    piece_rest (show start + 1 ≤ bytes.length by omega), drop_succ_of_cons h, bind, Except.bind]
  cases Kind.symbols.find? (·.spellingBytes.isPrefixOf (b :: rest)) <;> rfl

end

theorem isStringMark_cases (h : isStringMark b) :
    b = quoteByte ∨ b = lineFeedByte ∨ b = backslashByte := by
  simp only [isStringMark, Bool.or_eq_true, beq_iff_eq] at h
  tauto

/-- Bytes that need no closer look are skipped. -/
theorem stringLexeme_append {plain : List UInt8} (h : ∀ b ∈ plain, isStringMark b = false)
    (rest : List UInt8) (read : Nat) :
    stringLexeme read (plain ++ rest) = stringLexeme (read + plain.length) rest := by
  induction plain generalizing read with
  | nil => rfl
  | cons b plain ih =>
    rw [List.forall_mem_cons] at h
    obtain ⟨⟨hquote, hback⟩, hfeed⟩ : (b ≠ quoteByte ∧ b ≠ backslashByte) ∧ b ≠ lineFeedByte := by
      simpa [isStringMark] using h.1
    rw [List.cons_append, stringLexeme.eq_def]
    simp only [if_neg hquote, if_neg hfeed, if_neg hback, ih h.2, List.length_cons]
    congr 1
    omega

/-- The first byte that needs a closer look, and what stands before it. -/
theorem exists_of_findIdx? {found : Nat} (h : rest.findIdx? isStringMark = some found) :
    ∃ mark after, rest.drop found = mark :: after ∧ isStringMark mark ∧
      ∀ b ∈ rest.take found, isStringMark b = false := by
  obtain ⟨hlt, hmark, hbefore⟩ := List.findIdx?_eq_some_iff_getElem.mp h
  refine ⟨rest[found], rest.drop (found + 1), List.drop_eq_getElem_cons hlt, hmark, fun b hb => ?_⟩
  obtain ⟨i, hi, rfl⟩ := List.mem_take_iff_getElem.mp hb
  simpa using hbefore i (by omega)

theorem readString_eq (hlt : start < pos) (hle : pos ≤ bytes.length) :
    readString bytes start pos =
      .ok ((stringLexeme (pos - start) (bytes.drop pos)).placed start) := by
  induction hn : bytes.length - pos using Nat.strongRecOn generalizing pos with
  | _ n ih =>
    rw [readString, piece_rest hle]
    cases hfind : (bytes.drop pos).findIdx? isStringMark with
    | none =>
      have hplain := stringLexeme_append (List.findIdx?_eq_none_iff.mp hfind) [] (pos - start)
      rw [List.append_nil, List.length_drop, stringLexeme] at hplain
      simp only [hfind, hplain, bind, Except.bind, pure, Except.pure, Lexeme.placed]
      congr 3
      omega
    | some found =>
      obtain ⟨mark, after, hdrop, hmark, hplain⟩ := exists_of_findIdx? hfind
      have hstop : bytes.drop (pos + found) = mark :: after := by rw [← List.drop_drop, hdrop]
      have hlength := length_of_drop_cons hstop
      have hfetch : BoundsError.fetch (bytes.drop pos).toArray found = .ok mark := by
        rw [fetch_eq_ok, List.getElem?_toArray, ← List.head?_drop, hdrop, List.head?_cons]
      have hskip : stringLexeme (pos - start) (bytes.drop pos) =
          stringLexeme (pos + found - start) (mark :: after) := by
        rw [← List.take_append_drop found (bytes.drop pos), stringLexeme_append hplain, hdrop,
          List.length_take, List.length_drop, Nat.min_eq_left (by omega)]
        congr 1
        omega
      have hsum (k : Nat) : start + (pos + found - start + k) = pos + found + k := by omega
      have hbase : start + (pos + found - start) = pos + found := by omega
      simp only [hfind, hfetch, hskip, bind, Except.bind]
      rw [stringLexeme.eq_def]
      rcases isStringMark_cases hmark with rfl | rfl | rfl
      · simp [Lexeme.placed, hsum, pure, Except.pure]
      · have hquote : lineFeedByte ≠ quoteByte := by decide
        simp [Lexeme.placed, hquote, hbase, pure, Except.pure]
      · have hquote : backslashByte ≠ quoteByte := by decide
        have hfeed : backslashByte ≠ lineFeedByte := by decide
        simp only [if_neg hquote, if_neg hfeed]
        cases after with
        | nil =>
          rw [dif_pos (by simp only [List.length_nil] at hlength; omega)]
          simp [Lexeme.placed, hsum, pure, Except.pure]
        | cons c after =>
          have hnext : bytes.drop (pos + found + 1) = c :: after := drop_succ_of_cons hstop
          rw [List.length_cons] at hlength
          rw [dif_neg (by omega), byteAt_of_drop_cons hnext, charEnd_eq hnext]
          by_cases hline : c = lineFeedByte
          · simp [Lexeme.placed, hline, hsum, pure, Except.pure]
          · by_cases hescape : isEscape c
            · simp only [if_neg hline, if_pos hescape]
              rw [ih _ (by omega) (by omega) (by omega) rfl, drop_succ_of_cons hnext,
                if_pos trivial, show pos + found + 2 - start = pos + found - start + 2 by omega]
            · simp [Lexeme.placed, hline, hescape, hbase, pure, Except.pure, Nat.add_assoc]

/-! ### Tokens -/

theorem readLexeme_eq (bytes : List UInt8) (pos : Nat) :
    readLexeme bytes pos = .ok ((lexeme (bytes.drop pos)).placed pos) := by
  cases hrest : bytes.drop pos with
  | nil =>
    rw [readLexeme, if_pos (List.drop_eq_nil_iff.mp hrest)]
    rfl
  | cons b rest =>
    have hlength := length_of_drop_cons hrest
    simp only [readLexeme, lexeme, if_neg (show ¬ bytes.length ≤ pos by omega),
      byteAt_of_drop_cons hrest]
    split_ifs with hname hdigit hquote hhash
    · exact readWord_eq hrest hname
    · rw [readNumber_eq hrest]
      rfl
    · rw [readString_eq (show pos < pos + 1 by omega) (by omega), Nat.add_sub_cancel_left,
        drop_succ_of_cons hrest]
    · exact readDirective_eq hrest
    · exact readSymbol_eq hrest

/-- No cut fails. -/
theorem gapEnd_readLexeme_eq (bytes : List UInt8) (offset : Nat) :
    (gapEnd bytes offset >>= readLexeme bytes) = .ok (next bytes offset) := by
  rw [gapEnd_eq]
  simp only [bind, Except.bind, readLexeme_eq, next, List.drop_drop]
  rfl

/-! ### Ends -/

variable {offset : Nat} {t : Token}

theorem read_eq (bytes : List UInt8) (offset : Nat) :
    read bytes offset =
      (Span.ofRange (next bytes offset).span.start (next bytes offset).span.stop).mapError
        .range >>=
        fun span => pure ⟨(next bytes offset).kind, span⟩ := by
  rw [read, gapEnd_readLexeme_eq]
  rfl

theorem read_ok (h : (next bytes offset).span.stop < Span.limit) :
    read bytes offset = .ok (next bytes offset) := by
  have hstart : (next bytes offset).span.start < Span.limit := by
    simp only [next] at h ⊢
    omega
  rw [read_eq, Span.ofRange, if_neg (Nat.not_le.mpr hstart), if_neg (Nat.not_le.mpr h)]
  rfl

theorem read_error (h : Span.limit ≤ (next bytes offset).span.stop) :
    ∃ e, read bytes offset = .error (.range e) := by
  rw [read_eq, Span.ofRange, if_pos h]
  split_ifs
  · exact ⟨_, rfl⟩
  · exact ⟨_, rfl⟩

/-- The scanner gives the token that is next and ends before the limit. -/
theorem read_eq_ok_iff :
    read bytes offset = .ok t ↔ t.span.stop < Span.limit ∧ next bytes offset = t := by
  by_cases h : (next bytes offset).span.stop < Span.limit
  · rw [read_ok h, Except.ok.injEq]
    exact ⟨fun heq => ⟨heq ▸ h, heq⟩, fun hnext => hnext.2⟩
  · obtain ⟨e, he⟩ := read_error (Nat.not_lt.mp h)
    rw [he]
    exact ⟨(by cases ·), fun hnext => absurd (hnext.2 ▸ hnext.1) h⟩

theorem next_stop_le (hle : offset ≤ bytes.length) :
    (next bytes offset).span.stop ≤ bytes.length := by
  by_cases heof : (next bytes offset).kind = .eof
  · rw [next_eof hle heof]
    exact le_rfl
  · exact (next_of_ne_eof heof).2

/-- Below the limit the checks find nothing. -/
theorem readAll_eq (hshort : bytes.length < Span.limit) (hle : offset ≤ bytes.length) :
    readAll bytes offset = .ok (scanAll bytes offset) := by
  rw [readAll, scanAll]
  generalize bytes.length - offset + 1 = steps
  induction steps generalizing offset with
  | zero => rfl
  | succ steps ih =>
    have hstop := next_stop_le hle
    rw [readFrom, scanFrom, read_ok (by omega)]
    simp only [bind, Except.bind, ih hstop]
    split_ifs <;> rfl

end Token

theorem Source.sized_eq_ok {src src' : Source} (h : src.sized = .ok src') :
    src = src' ∧ src'.size < Span.limit := by
  unfold Source.sized at h
  split_ifs at h with hsize
  obtain rfl := Except.ok.inj h
  exact ⟨rfl, Nat.not_le.mp hsize⟩

/-- A source that is not too long is scanned without failure. -/
theorem Source.readAll_of_sized {src src' : Source} (h : src.sized = .ok src') :
    Token.readAll src'.bytes 0 = .ok (Token.scanAll src.bytes 0) := by
  obtain ⟨rfl, hshort⟩ := sized_eq_ok h
  exact Token.readAll_eq hshort (Nat.zero_le _)

end MicroCompiler
