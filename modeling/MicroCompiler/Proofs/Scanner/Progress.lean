import MicroCompiler.Proofs.Scanner.Characters
import MicroCompiler.Proofs.Scanner.Checks

/-! Every byte string is scanned to its end. A token other than the end of the file covers bytes
that are there, be it well formed or not, so the scan gets on and ends. If the bytes are a text, no
token cuts a character: malformed pieces end with a whole character, in front of a line feed or with
the text. -/

namespace MicroCompiler.Token

/-! ### Places that cut no character -/

/-- In a text no character is cut here: what stands behind the place continues nothing, or what
stands before it is ASCII. -/
def Parts (bytes : List UInt8) (n : Nat) : Prop :=
  (∀ b ∈ bytes[n]?, isContinuation b = false) ∨ ∃ b, 0 < n ∧ bytes[n - 1]? = some b ∧ b < 128

variable {bytes rest : List UInt8} {b : UInt8} {n : Nat}

theorem Parts.drop {k : Nat} (h : Parts (bytes.drop k) n) : Parts bytes (k + n) := by
  rcases h with hbehind | ⟨b, hpos, hbefore, hascii⟩
  · exact .inl (by simpa only [List.getElem?_drop] using hbehind)
  · rw [List.getElem?_drop, ← Nat.add_sub_assoc hpos] at hbefore
    exact .inr ⟨b, by omega, hbefore, hascii⟩

theorem Parts.cons (h : Parts rest n) : Parts (b :: rest) (1 + n) := Parts.drop (k := 1) h

theorem parts_behind (h : b < 128) : Parts (b :: rest) 1 := .inr ⟨b, Nat.one_pos, rfl, h⟩

theorem Parts.isValid {text : String} (hle : n ≤ (Source.ofString text).size)
    (h : Parts (Source.ofString text).bytes n) : (⟨n⟩ : String.Pos.Raw).IsValid text := by
  rcases h with hbehind | ⟨b, hpos, hbefore, hascii⟩
  · exact Source.isValid_of_not_continuation hle hbehind
  · exact Source.Edge.isValid (.inr ⟨b, hpos, hbefore, hascii⟩)

/-! ### Gaps and lexemes -/

theorem isBlank_ascii (h : isBlank b) : b < 128 := by
  have hblanks := mem_blanks h
  simp only [List.mem_cons, List.not_mem_nil, or_false] at hblanks
  rcases hblanks with rfl | rfl | rfl | rfl <;> decide

/-- A gap ends behind a blank or with the bytes, unless there is none. -/
theorem gapLength_parts (bytes : List UInt8) :
    (gapLength false bytes = 0 ∨ Parts bytes (gapLength false bytes)) ∧
    Parts bytes (gapLength true bytes) := by
  induction bytes with
  | nil => exact ⟨.inl rfl, .inl (by simp)⟩
  | cons b rest ih =>
    obtain ⟨hgap, hcomment⟩ := ih
    have hblank (hb : b < 128) : Parts (b :: rest) (1 + gapLength false rest) := by
      rcases hgap with hzero | hparts
      · rw [hzero]
        exact parts_behind hb
      · exact hparts.cons
    constructor
    · simp only [gapLength]
      split_ifs with hb hslashes
      · exact .inr (hblank (isBlank_ascii hb))
      · exact .inr hcomment.cons
      · exact .inl rfl
    · simp only [gapLength]
      by_cases hb : b = lineFeedByte
      · subst hb
        exact hblank (by decide)
      · rw [bne_iff_ne.mpr hb]
        exact hcomment.cons

theorem charLength_parts (bytes : List UInt8) : Parts bytes (charLength bytes) := by
  cases bytes with
  | nil => exact .inl (by simp)
  | cons b rest => exact .cons (.inl (behind_takeWhile isContinuation rest))

/-- Where a literal ends, well formed or not, and where an unknown escape begins. -/
theorem stringLexeme_parts (read : Nat) (bytes : List UInt8) :
    ((stringLexeme read bytes).skip = 0 ∨
        ∃ k, (stringLexeme read bytes).skip = read + k ∧ bytes[k]? = some backslashByte) ∧
      ∃ k, (stringLexeme read bytes).skip + (stringLexeme read bytes).length = read + k ∧
      Parts bytes k := by
  fun_induction stringLexeme read bytes with
  | case1 read => exact ⟨.inl rfl, 0, by simp, .inl (by simp)⟩
  | case2 read rest => exact ⟨.inl rfl, 1, by simp, parts_behind (by decide)⟩
  | case3 read rest hquote => exact ⟨.inl rfl, 0, by simp, .inl (by simp; decide)⟩
  | case4 read hquote hfeed => exact ⟨.inl rfl, 1, by simp, .inl (by simp)⟩
  | case5 read after hquote hfeed => exact ⟨.inl rfl, 1, by simp, .inl (by simp; decide)⟩
  | case6 read c after hline hescape hquote hback ih =>
    obtain ⟨hskip, k, hstop, hparts⟩ := ih
    refine ⟨hskip.imp_right ?_, 1 + (1 + k), by omega, hparts.cons.cons⟩
    rintro ⟨j, hj, hbyte⟩
    exact ⟨j + 2, by omega, hbyte⟩
  | case7 read c after hline hescape hquote hback =>
    exact ⟨.inr ⟨0, rfl, rfl⟩, 1 + charLength (c :: after), by simp, (charLength_parts _).cons⟩
  | case8 read b rest hquote hfeed hback ih =>
    obtain ⟨hskip, k, hstop, hparts⟩ := ih
    refine ⟨hskip.imp_right ?_, 1 + k, by omega, hparts.cons⟩
    rintro ⟨j, hj, hbyte⟩
    exact ⟨j + 1, by omega, hbyte⟩

theorem Lexeme.Solid.parts {lex : Lexeme} (h : lex.Solid bytes) (hpos : 0 < lex.length) :
    Parts bytes (lex.skip + lex.length) := by
  obtain ⟨hskip, -, c, hc, hascii⟩ := h
  rw [hskip, Nat.zero_add]
  exact .inr ⟨c, hpos, hc, hascii⟩

/-- A lexeme begins at the front, or with an ASCII byte if that is skipped, and it ends where no
character is cut. -/
theorem lexeme_parts (b : UInt8) (rest : List UInt8) :
    ((lexeme (b :: rest)).skip = 0 ∨ ∃ c, (b :: rest)[(lexeme (b :: rest)).skip]? = some c ∧
      c < 128) ∧ Parts (b :: rest) ((lexeme (b :: rest)).skip + (lexeme (b :: rest)).length) := by
  have hpos := (lexeme_covers b rest).2.1
  simp only [lexeme] at hpos ⊢
  split_ifs at hpos ⊢ with hname hdigit hquote hhash
  · exact ⟨.inl rfl, (wordLexeme_solid hname).parts hpos⟩
  · have hsolid : (numberLexeme (b :: rest)).Solid (b :: rest) := numberLexeme_solid hdigit
    exact ⟨.inl hsolid.1, hsolid.parts hpos⟩
  · obtain ⟨hskip, k, hstop, hparts⟩ := stringLexeme_parts 1 rest
    rw [hstop]
    refine ⟨hskip.imp_right ?_, hparts.cons⟩
    rintro ⟨j, hj, hbyte⟩
    exact ⟨backslashByte, by rw [hj, Nat.add_comm]; exact hbyte, by decide⟩
  · subst hhash
    have hsolid := directiveLexeme_solid rest
    exact ⟨.inl hsolid.1, hsolid.parts hpos⟩
  · cases herror : (symbolLexeme (b :: rest)).kind.isError with
    | false =>
      have hsolid := symbolLexeme_solid herror
      exact ⟨.inl hsolid.1, hsolid.parts hpos⟩
    | true =>
      unfold symbolLexeme at herror ⊢
      split at herror
      next kind hfind =>
        have hproper : ∀ k ∈ Kind.symbols, k.isError = false := by decide
        rw [hproper kind (List.mem_of_find?_eq_some hfind)] at herror
        cases herror
      next => exact ⟨.inl rfl, by simpa using charLength_parts (b :: rest)⟩

/-! ### Tokens -/

variable {offset : Nat}

/-- The end of the file, or a token that covers bytes at or behind the offset. -/
theorem next_eof_or_covers (hle : offset ≤ bytes.length) :
    next bytes offset = ⟨.eof, .point bytes.length⟩ ∨
      (next bytes offset).kind ≠ .eof ∧ offset ≤ (next bytes offset).span.start ∧
        (next bytes offset).span.start < (next bytes offset).span.stop ∧
        (next bytes offset).span.stop ≤ bytes.length := by
  by_cases heof : (next bytes offset).kind = .eof
  · exact .inl (next_eof hle heof)
  · refine .inr ⟨heof, ?_, ?_, (next_of_ne_eof heof).2⟩
    · simp only [next]
      omega
    · simp only [next] at heof ⊢
      cases hfront : (bytes.drop offset).drop (gapLength false (bytes.drop offset)) with
      | nil => simp [hfront, lexeme] at heof
      | cons b rest =>
        have hpos := (lexeme_covers b rest).2.1
        omega

/-- A scan of a text from between two characters gives a token from between characters to between
characters. -/
theorem next_isValid {text : String} (h : (⟨offset⟩ : String.Pos.Raw).IsValid text) :
    (⟨(next (Source.ofString text).bytes offset).span.start⟩ : String.Pos.Raw).IsValid text ∧
      (⟨(next (Source.ofString text).bytes offset).span.stop⟩ : String.Pos.Raw).IsValid text := by
  have hle : offset ≤ (Source.ofString text).size := h.le_rawEndPos
  have hgap := gapLength_le false ((Source.ofString text).bytes.drop offset)
  have hparts := (gapLength_parts ((Source.ofString text).bytes.drop offset)).1
  simp only [next]
  generalize gapLength false ((Source.ofString text).bytes.drop offset) = gap at *
  rw [List.length_drop] at hgap
  have hfront : (⟨offset + gap⟩ : String.Pos.Raw).IsValid text := by
    rcases hparts with rfl | hparts
    · exact h
    · exact hparts.drop.isValid (by simp only [Source.size] at *; omega)
  rw [List.drop_drop]
  cases hrest : (Source.ofString text).bytes.drop (offset + gap) with
  | nil => exact ⟨hfront, hfront⟩
  | cons b rest =>
    obtain ⟨-, -, hfits⟩ := lexeme_covers b rest
    obtain ⟨hstart, hstop⟩ := lexeme_parts b rest
    generalize lexeme (b :: rest) = lex at *
    rw [← hrest] at hfits hstart hstop
    rw [List.length_drop] at hfits
    constructor
    · rcases hstart with hskip | ⟨c, hc, hascii⟩
      · rwa [hskip]
      · rw [List.getElem?_drop] at hc
        exact Source.isValid_of_ascii hc hascii
    · rw [Nat.add_assoc]
      exact hstop.drop.isValid (by simp only [Source.size] at *; omega)

/-! ### Scans -/

/-- Where a scan stands after some tokens, each scanned from the end of the one before it. -/
def scanPoint (bytes : List UInt8) (offset : Nat) : Nat → Nat
  | 0 => offset
  | count + 1 => scanPoint bytes (next bytes offset).span.stop count

theorem scan_ends (hle : offset ≤ bytes.length) :
    ∃ count ≤ bytes.length - offset,
      (∀ i < count, (next bytes (scanPoint bytes offset i)).kind ≠ .eof) ∧
      next bytes (scanPoint bytes offset count) = ⟨.eof, .point bytes.length⟩ ∧
      scanAll bytes offset = (List.range (count + 1)).map fun i =>
      next bytes (scanPoint bytes offset i) := by
  induction hn : bytes.length - offset using Nat.strongRecOn generalizing offset with
  | _ n ih =>
    rw [scanAll_eq]
    rcases next_eof_or_covers hle with heof | ⟨hkind, hstart, hpos, hstop⟩
    · exact ⟨0, Nat.zero_le _, by simp, heof, by simp [heof, scanPoint]⟩
    · obtain ⟨count, hcount, hbefore, hlast, hall⟩ := ih _ (by omega) hstop rfl
      refine ⟨count + 1, by omega, ?_, hlast, ?_⟩
      · intro i hi
        cases i with
        | zero => exact hkind
        | succ i => exact hbefore i (by omega)
      · rw [if_neg hkind, hall, List.range_succ_eq_map (n := count + 1),
          List.map_cons, List.map_map]
        rfl

/-- Blanks without end are a gap up to the end. -/
theorem next_blanks (n : Nat) : next (List.replicate n 32) 0 = ⟨.eof, .point n⟩ := by
  have hgap : gapLength false (List.replicate n 32) = n := by
    induction n with
    | zero => rfl
    | succ n ih => rw [List.replicate_succ, gapLength.eq_3, if_pos (by decide), ih, Nat.add_comm]
  simp [next, hgap, lexeme, Span.point]

/-- Whatever the bytes are, a scan from any offset comes to the end of the file or to a token that
covers bytes at or behind it. Nothing fails on the way, and the token is given if it ends before the
limit of offsets, which in a source below the limit it does. There the end of the file is next after
at most as many tokens as there are bytes left, malformed ones included. In a text no token cuts a
character unless the scan starts inside of one. -/
theorem scanner_progresses {bytes : List UInt8} {offset : Nat} (hle : offset ≤ bytes.length) :
    (next bytes offset = ⟨.eof, .point bytes.length⟩ ∨
      (next bytes offset).kind ≠ .eof ∧ offset ≤ (next bytes offset).span.start ∧
        (next bytes offset).span.start < (next bytes offset).span.stop ∧
        (next bytes offset).span.stop ≤ bytes.length) ∧
    ((next bytes offset).span.stop < Span.limit → read bytes offset = .ok (next bytes offset)) ∧
    (Span.limit ≤ (next bytes offset).span.stop → ∃ e, read bytes offset = .error (.range e)) ∧
    (∃ count ≤ bytes.length - offset,
      (∀ i < count, (next bytes (scanPoint bytes offset i)).kind ≠ .eof) ∧
      next bytes (scanPoint bytes offset count) = ⟨.eof, .point bytes.length⟩ ∧
      (bytes.length < Span.limit → readAll bytes offset =
        .ok ((List.range (count + 1)).map fun i => next bytes (scanPoint bytes offset i)))) ∧
    ∀ text : String, bytes = (Source.ofString text).bytes →
      (⟨offset⟩ : String.Pos.Raw).IsValid text →
        (⟨(next bytes offset).span.start⟩ : String.Pos.Raw).IsValid text ∧
          (⟨(next bytes offset).span.stop⟩ : String.Pos.Raw).IsValid text := by
  refine ⟨next_eof_or_covers hle, read_ok, read_error, ?_, ?_⟩
  · obtain ⟨count, hcount, hbefore, hend, hall⟩ := scan_ends hle
    refine ⟨count, hcount, hbefore, hend, fun hshort => ?_⟩
    rw [readAll_eq hshort hle, hall]
  · rintro text rfl hvalid
    exact next_isValid hvalid

/-- A zero byte, and a literal that breaks off behind an escape of a character of two bytes. -/
def brokenOff : String := "\x00\"\\é"

theorem scanner_progresses_brokenOff :
    read (Source.ofString brokenOff).bytes 1 = .ok ⟨.unknownEscape, 2, 5⟩ ∧
      (∃ count ≤ 4, ∃ tokens, readAll (Source.ofString brokenOff).bytes 1 = .ok tokens ∧
        tokens.length = count + 1 ∧ tokens.getLast? = some ⟨.eof, .point 5⟩) ∧
      (⟨1⟩ : String.Pos.Raw).IsValid brokenOff ∧ (⟨2⟩ : String.Pos.Raw).IsValid brokenOff ∧
      (⟨5⟩ : String.Pos.Raw).IsValid brokenOff := by
  have hbytes : (Source.ofString brokenOff).bytes = [0, 34, 92, 195, 169] := by decide +kernel
  have htoken : next (Source.ofString brokenOff).bytes 1 = ⟨.unknownEscape, 2, 5⟩ := by
    rw [hbytes]
    decide
  have hstart : (⟨1⟩ : String.Pos.Raw).IsValid brokenOff :=
    Source.isValid_of_ascii (b := 34) (by rw [hbytes]; rfl) (by decide)
  have hlength : (Source.ofString brokenOff).bytes.length = 5 := by rw [hbytes]; rfl
  obtain ⟨-, hread, -, ⟨count, hcount, -, hend, hall⟩, hvalid⟩ :=
    scanner_progresses (show 1 ≤ (Source.ofString brokenOff).bytes.length by rw [hlength]; decide)
  rw [htoken] at hread hvalid
  rw [hlength] at hcount hend hall
  refine ⟨hread (by decide), ⟨count, hcount, _, hall (by decide), by simp, ?_⟩, hstart,
    hvalid brokenOff rfl hstart⟩
  rw [List.range_succ, List.map_append, List.map_singleton, List.getLast?_concat, hend]

/-- As many blanks as there are offsets leave no offset for the end of the file. -/
theorem blanks_break_scan :
    read (List.replicate Span.limit 32) 0 = .error (.range (.start 4294967296)) := by
  rw [read_eq, next_blanks]
  rfl

end MicroCompiler.Token
