import Mathlib.Data.List.TakeWhile
import MicroCompiler.Proofs.TokenStream

/-! Where tokens begin and end. The first and the last byte of a well-formed token are ASCII, so a
span from the start of one token to the end of another cuts no character, whatever stands in string
literals and comments. -/

namespace MicroCompiler

/-- An ASCII byte stands right behind the offset or right before it. -/
def Source.Edge (src : Source) (offset : Nat) : Prop :=
  (∃ b, src.bytes[offset]? = some b ∧ b < 128) ∨ ∃ b, 0 < offset ∧ src.bytes[offset - 1]? = some b ∧
    b < 128

/-! ### Characters -/

theorem ascii_and_high {b : UInt8} (h : b < 128) : b &&& 0x80 = 0 := by
  have hbytes : ∀ n < 128, UInt8.ofNat n &&& 0x80 = 0 := by decide
  rw [← b.ofNat_toNat]
  exact hbytes b.toNat (UInt8.lt_iff_toNat_lt.mp h)

namespace Source

variable {text : String} {offset : Nat} {b : UInt8}

theorem byte_ofString (h : (ofString text).bytes[offset]? = some b) :
    ∃ hlt : (⟨offset⟩ : String.Pos.Raw) < text.rawEndPos, text.getUTF8Byte ⟨offset⟩ hlt = b := by
  simp only [ofString, Array.getElem?_toList] at h
  obtain ⟨hlt, rfl⟩ := Array.getElem?_eq_some_iff.mp h
  exact ⟨hlt, rfl⟩

/-- A character begins at an ASCII byte. -/
theorem isValid_of_ascii (h : (ofString text).bytes[offset]? = some b) (hb : b < 128) :
    (⟨offset⟩ : String.Pos.Raw).IsValid text := by
  obtain ⟨hlt, rfl⟩ := byte_ofString h
  exact String.Pos.Raw.isValid_iff_isUTF8FirstByte.mpr (.inr ⟨hlt, .inl (ascii_and_high hb)⟩)

/-- A character ends behind an ASCII byte: the character that begins there is one byte long. -/
theorem isValid_behind_ascii (h : (ofString text).bytes[offset]? = some b) (hb : b < 128) :
    (⟨offset + 1⟩ : String.Pos.Raw).IsValid text := by
  obtain ⟨hlt, hbyte⟩ := byte_ofString h
  let pos : text.Pos := ⟨⟨offset⟩, isValid_of_ascii h hb⟩
  have hend : pos ≠ text.endPos := by
    intro heq
    have hoffset : (⟨offset⟩ : String.Pos.Raw) = text.rawEndPos := congrArg String.Pos.offset heq
    rw [hoffset] at hlt
    exact Nat.lt_irrefl _ hlt
  have hfirst : pos.byte hend = b := by
    rw [← hbyte]
    simp [pos, String.Pos.byte, String.Slice.Pos.byte, String.Slice.getUTF8Byte]
  have hsize : (pos.get hend).utf8Size = 1 := by
    rw [← String.Pos.utf8ByteSize_byte]
    simp [UInt8.utf8ByteSize, hfirst, ascii_and_high hb]
  have hnext : (pos.next hend).offset = ⟨offset + 1⟩ := by
    ext
    simp [hsize, pos]
  rw [← hnext]
  exact (pos.next hend).isValid

theorem Edge.isValid (h : (ofString text).Edge offset) :
    (⟨offset⟩ : String.Pos.Raw).IsValid text := by
  rcases h with ⟨b, hb, hascii⟩ | ⟨b, hpos, hb, hascii⟩
  · exact isValid_of_ascii hb hascii
  · have hvalid := isValid_behind_ascii hb hascii
    rwa [Nat.sub_add_cancel hpos] at hvalid

end Source

namespace Token

/-! ### Lexemes -/

/-- The lexeme stands at the front and begins and ends with an ASCII byte. -/
def Lexeme.Solid (lex : Lexeme) (bytes : List UInt8) : Prop :=
  lex.skip = 0 ∧ (∃ b, bytes[0]? = some b ∧ b < 128) ∧ ∃ b, bytes[lex.length - 1]? = some b ∧
    b < 128

theorem isNamePart_ascii {b : UInt8} (h : isNamePart b) : b < 128 := by
  simp only [isNamePart, isNameStart, isDigit, Bool.or_eq_true, Bool.and_eq_true, decide_eq_true_eq,
    beq_iff_eq] at h
  rcases h with ((⟨-, h⟩ | ⟨-, h⟩) | rfl) | ⟨-, h⟩
  · exact UInt8.lt_of_le_of_lt h (by decide)
  · exact UInt8.lt_of_le_of_lt h (by decide)
  · decide
  · exact UInt8.lt_of_le_of_lt h (by decide)

theorem isDigit_ascii {b : UInt8} (h : isDigit b) : b < 128 :=
  isNamePart_ascii (by simp [isNamePart, h])

/-- The last byte that a class takes from the front. -/
theorem last_of_takeWhile (p : UInt8 → Bool) (bytes : List UInt8)
    (hpos : 0 < (bytes.takeWhile p).length) :
    ∃ b, bytes[(bytes.takeWhile p).length - 1]? = some b ∧ p b := by
  have hlt := Nat.sub_one_lt_of_lt hpos
  refine ⟨(bytes.takeWhile p)[(bytes.takeWhile p).length - 1], ?_, List.mem_takeWhile_imp
    (List.getElem_mem hlt)⟩
  have hsplit := congrArg (·[(bytes.takeWhile p).length - 1]?)
    (bytes.takeWhile_append_dropWhile (p := p))
  simp only [List.getElem?_append_left hlt, List.getElem?_eq_getElem hlt] at hsplit
  exact hsplit.symm

/-- What follows the bytes that a class takes from the front is not in the class. -/
theorem behind_takeWhile (p : UInt8 → Bool) (bytes : List UInt8) :
    ∀ b ∈ bytes[(bytes.takeWhile p).length]?, p b = false := by
  induction bytes with
  | nil => simp
  | cons c rest ih =>
    cases hc : p c with
    | true => simpa [hc] using ih
    | false => simp [hc]

theorem wordLexeme_solid {b : UInt8} {rest : List UInt8} (h : isNameStart b) :
    (wordLexeme (b :: rest)).Solid (b :: rest) := by
  have hb : isNamePart b := by simp [isNamePart, h]
  obtain ⟨c, hc, hpart⟩ := last_of_takeWhile isNamePart (b :: rest) (by simp [hb])
  exact ⟨rfl, ⟨b, rfl, isNamePart_ascii hb⟩, c, hc, isNamePart_ascii hpart⟩

theorem numberLexeme_solid {b : UInt8} {rest : List UInt8} (h : isDigit b) :
    (numberLexeme (b :: rest)).Solid (b :: rest) := by
  have hfirst : ∃ c, (b :: rest)[0]? = some c ∧ c < 128 := ⟨b, rfl, isDigit_ascii h⟩
  obtain ⟨c, hc, hdigit⟩ := last_of_takeWhile isDigit (b :: rest) (by simp [h])
  simp only [numberLexeme]
  split
  next point after hdrop =>
    split_ifs with hfraction
    · obtain ⟨d, hd, hdigit⟩ := last_of_takeWhile _ _ (Nat.pos_of_ne_zero hfraction.2)
      refine ⟨rfl, hfirst, d, ?_, isDigit_ascii hdigit⟩
      have hafter : (b :: rest).drop (((b :: rest).takeWhile isDigit).length + 1) = after := by
        rw [← List.drop_drop, hdrop]
        rfl
      have hlast := hfraction.2
      rw [← hd, ← hafter, List.getElem?_drop, hafter]
      congr 1
      simp only
      omega
    · exact ⟨rfl, hfirst, c, hc, isDigit_ascii hdigit⟩
  next => exact ⟨rfl, hfirst, c, hc, isDigit_ascii hdigit⟩

theorem directiveLexeme_solid (rest : List UInt8) :
    (directiveLexeme rest).Solid (hashByte :: rest) := by
  simp only [directiveLexeme]
  split_ifs with hname
  · have hpos : 0 < (rest.takeWhile isNamePart).length := by
      cases htake : rest.takeWhile isNamePart with
      | nil => simp [htake] at hname
      | cons c cs => simp
    obtain ⟨c, hc, hpart⟩ := last_of_takeWhile _ _ hpos
    refine ⟨rfl, ⟨hashByte, rfl, by decide⟩, c, ?_, isNamePart_ascii hpart⟩
    obtain ⟨last, hlength⟩ : ∃ last, (rest.takeWhile isNamePart).length = last + 1 :=
      ⟨_, (Nat.sub_add_cancel hpos).symm⟩
    rw [hlength] at hc ⊢
    simpa using hc
  · exact ⟨rfl, ⟨hashByte, rfl, by decide⟩, hashByte, rfl, by decide⟩

/-- A string literal ends with its closing quote. -/
theorem stringLexeme_solid (read : Nat) (bytes : List UInt8)
    (h : (stringLexeme read bytes).kind.isError = false) :
    (stringLexeme read bytes).skip = 0 ∧ read < (stringLexeme read bytes).length ∧
      bytes[(stringLexeme read bytes).length - 1 - read]? = some quoteByte := by
  fun_induction stringLexeme read bytes with
  | case2 read rest => simp
  | case6 read c after hline hescape hquote hback ih =>
    obtain ⟨hskip, hlt, hlast⟩ := ih h
    refine ⟨hskip, by omega, ?_⟩
    rw [show (stringLexeme (read + 2) after).length - 1 - read =
      (stringLexeme (read + 2) after).length - 1 - (read + 2) + 1 + 1 by omega]
    simpa using hlast
  | case8 read b rest hquote hfeed hback ih =>
    obtain ⟨hskip, hlt, hlast⟩ := ih h
    refine ⟨hskip, by omega, ?_⟩
    rw [show (stringLexeme (read + 1) rest).length - 1 - read =
      (stringLexeme (read + 1) rest).length - 1 - (read + 1) + 1 by omega]
    simpa using hlast
  | _ => cases h

theorem symbolLexeme_solid {bytes : List UInt8} (h : (symbolLexeme bytes).kind.isError = false) :
    (symbolLexeme bytes).Solid bytes := by
  unfold symbolLexeme at h ⊢
  split at h
  next kind hfind =>
    have hmem := List.mem_of_find?_eq_some hfind
    obtain ⟨rest, rfl⟩ : kind.spellingBytes <+: bytes := by simpa using List.find?_some hfind
    have hascii : ∀ k ∈ Kind.symbols, (∃ b ∈ k.spellingBytes[0]?, b < 128) ∧
        ∃ b ∈ k.spellingBytes[k.spellingBytes.length - 1]?, b < 128 := by decide
    obtain ⟨⟨b, hb, hfirst⟩, c, hc, hlast⟩ := hascii kind hmem
    have hkept : ∀ {i : Nat} {d : UInt8},
        kind.spellingBytes[i]? = some d → (kind.spellingBytes ++ rest)[i]? = some d := by
      intro i d hd
      rw [List.getElem?_append_left (List.getElem?_eq_some_iff.mp hd).1, hd]
    exact ⟨rfl, ⟨b, hkept hb, hfirst⟩, c, hkept hc, hlast⟩
  next => cases h

theorem lexeme_solid {b : UInt8} {rest : List UInt8}
    (h : (lexeme (b :: rest)).kind.isError = false) :
    (lexeme (b :: rest)).Solid (b :: rest) := by
  simp only [lexeme] at h ⊢
  split_ifs at h ⊢ with hname hdigit hquote hhash
  · exact wordLexeme_solid hname
  · exact numberLexeme_solid hdigit
  · obtain ⟨hskip, hlt, hlast⟩ := stringLexeme_solid 1 rest h
    subst hquote
    refine ⟨hskip, ⟨quoteByte, rfl, by decide⟩, quoteByte, ?_, by decide⟩
    obtain ⟨last, hlength⟩ : ∃ last, (stringLexeme 1 rest).length = last + 2 :=
      ⟨_, (Nat.sub_add_cancel hlt).symm⟩
    rw [hlength] at hlast ⊢
    simpa using hlast
  · subst hhash
    exact directiveLexeme_solid rest
  · exact symbolLexeme_solid h

/-! ### Tokens -/

/-- The token covers bytes of the source, and its first and last byte are ASCII. -/
structure Solid (src : Source) (t : Token) : Prop where
  nonempty : t.span.start < t.span.stop
  fits : t.span.stop ≤ src.size
  first : ∃ b, src.bytes[t.span.start]? = some b ∧ b < 128
  last : ∃ b, src.bytes[t.span.stop - 1]? = some b ∧ b < 128

theorem Solid.starts {src : Source} {t : Token} (h : t.Solid src) : src.Edge t.span.start :=
  .inl h.first

theorem Solid.stops {src : Source} {t : Token} (h : t.Solid src) : src.Edge t.span.stop := by
  obtain ⟨b, hb, hascii⟩ := h.last
  exact .inr ⟨b, Nat.zero_lt_of_lt h.nonempty, hb, hascii⟩

theorem solid_next {src : Source} {offset : Nat}
    (herror : (next src.bytes offset).kind.isError = false)
    (heof : (next src.bytes offset).kind ≠ .eof) : Solid src (next src.bytes offset) := by
  simp only [next] at herror heof ⊢
  generalize hgap : gapLength false (src.bytes.drop offset) = gap at *
  cases hrest : (src.bytes.drop offset).drop gap with
  | nil =>
    rw [hrest] at heof
    exact absurd rfl heof
  | cons b rest =>
    rw [hrest] at herror
    obtain ⟨-, hpos, hle⟩ := lexeme_covers b rest
    obtain ⟨hskip, ⟨c, hc, hfirst⟩, d, hd, hlast⟩ := lexeme_solid herror
    rw [hskip] at hle
    have hlength := congrArg List.length hrest
    have hbyte : ∀ i, src.bytes[offset + gap + i]? = (b :: rest)[i]? := by
      intro i
      rw [← hrest, List.drop_drop, List.getElem?_drop]
    simp only [List.length_drop, List.length_cons] at hlength hle
    rw [hskip]
    refine ⟨by simp only; omega, ?_, ⟨c, (hbyte 0).trans hc, hfirst⟩, d, ?_, hlast⟩
    · simp only [Source.size]
      omega
    · rw [← hd, ← hbyte]
      congr 1
      simp only
      omega

/-- A string literal has both its quotes. -/
theorem next_string {bytes : List UInt8} {offset : Nat} (h : (next bytes offset).kind = .string) :
    (next bytes offset).span.start + 2 ≤ (next bytes offset).span.stop := by
  simp only [next] at h ⊢
  generalize (bytes.drop offset).drop (gapLength false (bytes.drop offset)) = front at h ⊢
  have hlength : 2 ≤ (lexeme front).length := by
    cases front with
    | nil => cases h
    | cons b rest =>
      simp only [lexeme] at h ⊢
      split_ifs at h ⊢
      · exact absurd h (find?_getD_ne _ _ _ (by decide) (by decide))
      · simp only [numberLexeme] at h
        split at h
        · split_ifs at h
        · cases h
      · exact (stringLexeme_solid 1 rest (by rw [h]; rfl)).2.1
      · simp only [directiveLexeme] at h
        split_ifs at h
        exact absurd h (find?_getD_ne _ _ _ (by decide) (by decide))
      · unfold symbolLexeme at h
        split at h
        next kind hfind =>
          subst h
          exact absurd (List.mem_of_find?_eq_some hfind) (by decide)
        next => cases h
  omega

end Token

end MicroCompiler
