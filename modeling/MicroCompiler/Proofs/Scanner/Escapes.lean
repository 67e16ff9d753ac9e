import MicroCompiler.Token.Escape
import MicroCompiler.Proofs.Scanner.Respacing

/-! Two readers of string literals. The scanner looks for the end of a literal among its bytes, and
decoding replaces the escapes of what it says, character by character and with a table of its own.
Both get on in step: what one of them takes for an escape is one for the other, so they agree on
which contents are well formed and on where the first escape stands that is none. -/

namespace MicroCompiler.Token.Escape

variable {c found meant : Char} {chars : List Char} {offset : Nat}

/-! ### Quotes and escapes in contents -/

/-- The byte offsets of the quotes that are not escaped, in characters that begin at byte `offset`.
The flag tells whether a backslash escapes the first of them. -/
def bareQuotes (escaped : Bool) (offset : Nat) : List Char → List Nat
  | [] => []
  | c :: rest =>
    let later := bareQuotes (c == '\\' && !escaped) (offset + c.utf8Size) rest
    if c = '"' ∧ escaped = false then offset :: later else later

/-- The characters that make an escape with a backslash. -/
def letters : List Char := ['a', 'b', 'r', 'n', 't', 'v', '\\', '"', '\'', '0']

/-- The escape of a character that has one, else the character. -/
def encodeChar (c : Char) : List Char := (letters.find? (meaning? · == some c)).elim [c] (['\\', ·])

/-- Replaces the characters that have an escape by it. -/
def encode (text : String) : String := String.ofList (text.toList.flatMap encodeChar)

/-- Contents between quotes. -/
def literal (raw : String) : Source := .ofString ("\"" ++ raw ++ "\"")

theorem bareQuotes_escape : bareQuotes false offset ('\\' :: found :: chars) =
    bareQuotes false (offset + 1 + found.utf8Size) chars := by
  simp [bareQuotes, show '\\'.utf8Size = 1 from rfl]

theorem bareQuotes_plain (hquote : c ≠ '"') (hback : c ≠ '\\') :
    bareQuotes false offset (c :: chars) = bareQuotes false (offset + c.utf8Size) chars := by
  rw [bareQuotes, if_neg (fun h => hquote h.1), beq_eq_false_iff_ne.mpr hback]
  rfl

theorem mem_letters (h : meaning? found = some meant) : found ∈ letters := by
  unfold meaning? at h
  split at h <;> first | decide | cases h

theorem meaning?_letters (h : found ∈ letters) : (meaning? found).isSome :=
  List.all_eq_true.mp (show letters.all fun d => (meaning? d).isSome from rfl) found h

/-! ### The scanner, character by character -/

/-- What the scanner makes of a literal of which it has read the contents up to byte `offset`: the
characters and the closing quote are left. -/
def scanContents (offset : Nat) (chars : List Char) : Lexeme :=
  stringLexeme (offset + 1) (encoded chars ++ [quoteByte])

theorem encoded_backslash (chars : List Char) :
    encoded ('\\' :: chars) = backslashByte :: encoded chars := rfl

theorem length_encoded_escape :
    (encoded ('\\' :: found :: chars)).length = 1 + found.utf8Size + (encoded chars).length := by
  rw [length_encoded_cons, length_encoded_cons, Nat.add_assoc]
  rfl

theorem encoded_letter (h : c ∈ letters) : ∃ b, String.utf8EncodeChar c = [b] ∧ isEscape b := by
  simp only [letters, List.mem_cons, List.not_mem_nil, or_false] at h
  rcases h with rfl | rfl | rfl | rfl | rfl | rfl | rfl | rfl | rfl | rfl <;> exact ⟨_, rfl, rfl⟩

/-- The bytes that the scanner takes for an escape behind a backslash are the letters. -/
theorem isEscape_iff {b : UInt8} (h : b ∈ String.utf8EncodeChar c) : isEscape b ↔ c ∈ letters := by
  constructor
  · intro hb
    have hascii : ∀ b : UInt8, isEscape b → b < 128 ∧ b.toNat ∈ letters.map Char.toNat :=
      forall_byte (by decide +kernel)
    obtain ⟨hlt, hnumber⟩ := hascii b hb
    obtain ⟨d, hd, hnumber⟩ := List.mem_map.mp hnumber
    rwa [eq_of_mem_utf8EncodeChar h hlt hnumber]
  · intro hc
    obtain ⟨d, hd, hescape⟩ := encoded_letter hc
    rw [hd, List.mem_singleton] at h
    rwa [h]

theorem head_encoded_quote (chars : List Char) :
    ∀ b ∈ (encoded chars ++ [quoteByte]).head?, isContinuation b = false := by
  cases chars with
  | nil =>
    rintro b ⟨⟩
    rfl
  | cons c chars =>
    rw [encoded_cons, List.append_assoc]
    exact head_utf8EncodeChar c _

theorem scanContents_nil : scanContents offset [] = ⟨.string, 0, offset + 2⟩ := rfl

theorem scanContents_quote : scanContents offset ('"' :: chars) = ⟨.string, 0, offset + 2⟩ :=
  stringLexeme_quote _ _

theorem scanContents_lineFeed :
    scanContents offset ('\n' :: chars) = ⟨.newlineInString, 0, offset + 1⟩ := by
  rw [scanContents, stringLexeme.eq_def]
  rfl

/-- The closing quote is taken for an escape. -/
theorem scanContents_backslash :
    scanContents offset ['\\'] = ⟨.unterminatedString, 0, offset + 3⟩ :=
  stringLexeme_escape (by decide) _ _

theorem scanContents_escapedLineFeed :
    scanContents offset ('\\' :: '\n' :: chars) = ⟨.newlineInString, 0, offset + 2⟩ := by
  rw [scanContents, stringLexeme.eq_def]
  rfl

theorem scanContents_char (hc : c ∉ ['"', '\\', '\n']) :
    scanContents offset (c :: chars) = scanContents (offset + c.utf8Size) chars := by
  have hplain : ∀ b ∈ String.utf8EncodeChar c, b ∉ [quoteByte, backslashByte, lineFeedByte] := by
    intro b hb hmem
    simp only [List.mem_cons, List.not_mem_nil, or_false, not_or] at hc hmem
    rcases hmem with rfl | rfl | rfl
    · exact hc.1 (eq_of_mem_utf8EncodeChar hb (by decide) rfl)
    · exact hc.2.1 (eq_of_mem_utf8EncodeChar hb (by decide) rfl)
    · exact hc.2.2 (eq_of_mem_utf8EncodeChar hb (by decide) rfl)
  rw [scanContents, encoded_cons, List.append_assoc, stringLexeme_plains hplain,
    String.length_utf8EncodeChar, Nat.add_right_comm, scanContents]

theorem scanContents_escape (h : meaning? found = some meant) :
    scanContents offset ('\\' :: found :: chars) =
    scanContents (offset + 1 + found.utf8Size) chars := by
  obtain ⟨b, hb, hescape⟩ := encoded_letter (mem_letters h)
  have hsize : found.utf8Size = 1 := by
    rw [← String.length_utf8EncodeChar, hb, List.length_singleton]
  rw [scanContents, encoded_backslash, encoded_cons, hb, List.singleton_append, List.cons_append,
    List.cons_append, stringLexeme_escape hescape, hsize, scanContents]

/-- A backslash in front of any other character is reported together with the whole character. -/
theorem scanContents_unknown (h : meaning? found = none) (hfeed : found ≠ '\n') :
    scanContents offset ('\\' :: found :: chars) =
    ⟨.unknownEscape, offset + 1, 1 + found.utf8Size⟩ := by
  have hlength := charLength_utf8EncodeChar found (head_encoded_quote chars)
  obtain ⟨b, bytes, hbytes⟩ := List.exists_cons_of_length_pos
    (by rw [String.length_utf8EncodeChar]; exact found.utf8Size_pos : 0 < (String.utf8EncodeChar found).length)
  have hmem : b ∈ String.utf8EncodeChar found := by simp [hbytes]
  have hline : b ≠ lineFeedByte := by
    rintro rfl
    exact hfeed (eq_of_mem_utf8EncodeChar hmem (by decide) rfl)
  have hescape : ¬ isEscape b := by
    rw [isEscape_iff hmem]
    intro hletter
    have hsome := meaning?_letters hletter
    rw [h] at hsome
    cases hsome
  rw [hbytes, List.cons_append] at hlength
  rw [scanContents, encoded_backslash, encoded_cons, List.cons_append, List.append_assoc, hbytes,
    List.cons_append, stringLexeme, if_neg (by decide), if_neg (by decide), if_pos rfl, if_neg
    hline, if_neg hescape, hlength]

/-! ### Both readers in step -/

section

variable {α β : Type} {e : Error} {decoding : Except Error α} {f : α → β}

theorem exists_map_eq_ok : (∃ out, decoding.map f = .ok out) ↔ ∃ out, decoding = .ok out := by
  cases decoding <;> simp [Except.map]

theorem map_eq_error : decoding.map f = .error e ↔ decoding = .error e := by
  cases decoding <;> simp [Except.map]

end

variable {e : Error}

/-- The scanner finds the closing quote just where the contents end, if and only if they have no
line feed, can be decoded and have no quote that is not escaped. -/
theorem scanContents_eq_string_iff {stop : Nat} (hstop : offset + (encoded chars).length = stop) :
    scanContents offset chars = ⟨.string, 0, stop + 2⟩ ↔
      '\n' ∉ chars ∧ (∃ out, decodeFrom offset chars = .ok out) ∧
      bareQuotes false offset chars = [] := by
  -- along the decoding, with the end of the contents fixed
  fun_induction decodeFrom offset chars with
  | case1 offset =>
    obtain rfl : offset = stop := hstop
    simp [scanContents_nil, bareQuotes]
  | case2 offset => simp [scanContents_backslash]
  | case3 offset found after hmeaning =>
    by_cases hfeed : found = '\n'
    · simp [hfeed, scanContents_escapedLineFeed]
    · simp [scanContents_unknown hmeaning hfeed]
  | case4 offset found after meant hmeaning ih =>
    have hfeed : '\n' ≠ found := by
      rintro rfl
      cases hmeaning
    rw [length_encoded_escape, ← Nat.add_assoc, ← Nat.add_assoc] at hstop
    rw [scanContents_escape hmeaning, bareQuotes_escape, exists_map_eq_ok, ih hstop]
    simp [hfeed]
  | case5 offset c after hback ih =>
    rw [length_encoded_cons, ← Nat.add_assoc] at hstop
    by_cases hquote : c = '"'
    · -- the literal ends here, but the contents do not
      have hearly : offset ≠ stop := by
        have hpos := c.utf8Size_pos
        omega
      simp [hquote, scanContents_quote, bareQuotes, hearly]
    · by_cases hfeed : c = '\n'
      · simp [hfeed, scanContents_lineFeed]
      · rw [scanContents_char (by simp [hquote, hback, hfeed]), bareQuotes_plain hquote hback,
          exists_map_eq_ok, ih hstop]
        simp [Ne.symm hfeed]

theorem le_offset_of_error (h : decodeFrom offset chars = .error e) : offset ≤ e.offset := by
  fun_induction decodeFrom offset chars with
  | case1 offset => cases h
  | case2 offset =>
    cases h
    exact le_rfl
  | case3 offset found after hmeaning =>
    cases h
    exact le_rfl
  | case4 offset found after meant hmeaning ih | case5 offset c after hback ih =>
    have hle := ih (map_eq_error.mp h)
    omega

/-- If no quote ends the literal before, the scanner reports the backslash at which decoding fails,
unless it is the last character and escapes the closing quote. -/
theorem scanContents_of_error (h : decodeFrom offset chars = .error e) (hfeed : '\n' ∉ chars)
    (hbehind : e.offset + 1 < offset + (encoded chars).length)
    (hquotes : ∀ q ∈ bareQuotes false offset chars, e.offset ≤ q) :
    scanContents offset chars = ⟨.unknownEscape, e.offset + 1, 1 + e.found.utf8Size⟩ := by
  fun_induction decodeFrom offset chars with
  | case1 offset => cases h
  | case2 offset =>
    cases h
    exact absurd hbehind (Nat.lt_irrefl _)
  | case3 offset found after hmeaning =>
    cases h
    exact scanContents_unknown hmeaning (by simp_all [eq_comm])
  | case4 offset found after meant hmeaning ih =>
    rw [length_encoded_escape, ← Nat.add_assoc, ← Nat.add_assoc] at hbehind
    rw [bareQuotes_escape] at hquotes
    rw [scanContents_escape hmeaning]
    exact ih (map_eq_error.mp h) (by simp_all) hbehind hquotes
  | case5 offset c after hback ih =>
    have hlater := map_eq_error.mp h
    rw [length_encoded_cons, ← Nat.add_assoc] at hbehind
    rw [List.mem_cons, not_or] at hfeed
    have hquote : c ≠ '"' := by
      rintro rfl
      have hle := hquotes offset (by simp [bareQuotes])
      have hlt : offset + 1 ≤ e.offset := le_offset_of_error hlater
      omega
    rw [bareQuotes_plain hquote hback] at hquotes
    rw [scanContents_char (by simp [hquote, hback, Ne.symm hfeed.1])]
    exact ih hlater hfeed.2 hbehind hquotes

/-! ### Encoded texts -/

/-- A character is encoded as an escape that stands for it, or as itself if none does. -/
theorem encodeChar_cases (c : Char) :
    (∃ letter, encodeChar c = ['\\', letter] ∧ meaning? letter = some c) ∨
      encodeChar c = [c] ∧ ∀ letter, meaning? letter ≠ some c := by
  unfold encodeChar
  cases hfind : letters.find? (meaning? · == some c) with
  | some letter => exact .inl ⟨letter, rfl, by simpa using List.find?_some hfind⟩
  | none =>
    refine .inr ⟨rfl, fun letter hmeaning => ?_⟩
    exact List.find?_eq_none.mp hfind letter (mem_letters hmeaning) (beq_iff_eq.mpr hmeaning)

/-- Encoded characters are decoded to themselves, and they have no bare quote and no line feed. -/
theorem encodeChar_contents (chars : List Char) (offset : Nat) :
    decodeFrom offset (chars.flatMap encodeChar) = .ok chars ∧
      bareQuotes false offset (chars.flatMap encodeChar) = [] ∧
      '\n' ∉ chars.flatMap encodeChar := by
  induction chars generalizing offset with
  | nil => exact ⟨rfl, rfl, List.not_mem_nil⟩
  | cons c chars ih =>
    rw [List.flatMap_cons]
    rcases encodeChar_cases c with ⟨letter, heq, hmeaning⟩ | ⟨heq, hplain⟩
    · obtain ⟨hdecode, hquotes, hfeed⟩ := ih (offset + 1 + letter.utf8Size)
      have hletter : '\n' ≠ letter := by
        rintro rfl
        cases hmeaning
      rw [heq, List.cons_append, List.singleton_append, decodeFrom, if_pos rfl, bareQuotes_escape]
      simp [hmeaning, hdecode, hquotes, hletter, hfeed, Except.map]
    · obtain ⟨hdecode, hquotes, hfeed⟩ := ih (offset + c.utf8Size)
      have hquote : c ≠ '"' := by
        rintro rfl
        exact hplain '"' rfl
      have hback : c ≠ '\\' := by
        rintro rfl
        exact hplain '\\' rfl
      have hline : '\n' ≠ c := by
        rintro rfl
        exact hplain 'n' rfl
      rw [heq, List.singleton_append, decodeFrom.eq_def, bareQuotes_plain hquote hback]
      simp [hback, hdecode, hquotes, hline, hfeed, Except.map]

/-! ### Literals -/

theorem bytes_literal (raw : String) :
    (literal raw).bytes = quoteByte :: (encoded raw.toList ++ [quoteByte]) := by
  rw [literal, Source.bytes_append, Source.bytes_append, Source.bytes_ofString raw]
  rfl

theorem size_literal (raw : String) : (literal raw).size = (encoded raw.toList).length + 2 := by
  rw [Source.size, bytes_literal, List.length_cons, List.length_append]
  rfl

theorem next_literal (raw : String) :
    next (literal raw).bytes 0 = ⟨(scanContents 0 raw.toList).kind,
      (scanContents 0 raw.toList).skip, (scanContents 0 raw.toList).skip +
      (scanContents 0 raw.toList).length⟩ := by
  have hfront : ¬ BeginsGap (literal raw).bytes := by
    rw [bytes_literal]
    rintro (⟨b, hb, hblank⟩ | ⟨tail, htail⟩)
    · obtain rfl : quoteByte = b := by simpa using hb
      exact absurd hblank (by decide)
    · exact absurd (List.cons.inj htail).1 (by decide)
  have hlexeme : lexeme (literal raw).bytes = scanContents 0 raw.toList := by
    rw [bytes_literal]
    rfl
  have hbytes : (literal raw).bytes.drop 0 = [] ++ (literal raw).bytes := rfl
  rw [next_behind_gap hbytes .nil hfront, hlexeme]
  simp

theorem literal_iff (raw : String) :
    next (literal raw).bytes 0 = ⟨.string, 0, (literal raw).size⟩ ↔
      '\n' ∉ raw.toList ∧ (∃ text, decode raw = .ok text) ∧ bareQuotes false 0 raw.toList = [] := by
  have hscan : next (literal raw).bytes 0 = ⟨.string, 0, (literal raw).size⟩ ↔
      scanContents 0 raw.toList = ⟨.string, 0, (encoded raw.toList).length + 2⟩ := by
    rw [next_literal, size_literal]
    obtain ⟨kind, skip, length⟩ := scanContents 0 raw.toList
    simp only [Token.mk.injEq, Span.mk.injEq, Lexeme.mk.injEq]
    constructor
    · rintro ⟨rfl, rfl, hstop⟩
      exact ⟨rfl, rfl, (Nat.zero_add _).symm.trans hstop⟩
    · rintro ⟨rfl, rfl, rfl⟩
      exact ⟨rfl, rfl, Nat.zero_add _⟩
  rw [hscan, scanContents_eq_string_iff (Nat.zero_add _), decode, exists_map_eq_ok]

/-- What a literal says stands between its quotes, and it can be decoded. -/
theorem decode_contents {text : String} {t : Token}
    (hmem : t ∈ scanAll (Source.ofString text).bytes 0)
    (hkind : t.kind = .string) :
    t.text (.ofString text) = "\"" ++ (Source.ofString text).text t.span.unquoted ++ "\"" ∧
      ∃ out, decode ((Source.ofString text).text t.span.unquoted) = .ok out := by
  have hlexeme := isLexeme_text hmem (by rw [hkind]; rfl) (by rw [hkind]; decide)
  rw [hkind] at hlexeme
  obtain ⟨hsolid, hquotes⟩ : t.Solid (.ofString text) ∧ t.span.start + 2 ≤ t.span.stop := by
    obtain ⟨o, -, rfl⟩ := mem_scanAll hmem
    exact ⟨solid_next (by rw [hkind]; rfl) (by rw [hkind]; decide), next_string hkind⟩
  have htext : t.text (.ofString text) = "\"" ++ (Source.ofString text).text
      t.span.unquoted ++ "\"" := by
    obtain ⟨body, -, hword⟩ := hlexeme.isLiteral
    have hinner : (Source.ofString ((Source.ofString text).text t.span.unquoted)).bytes = body := by
      obtain ⟨b, hb, hfirst⟩ := hsolid.first
      obtain ⟨c, hc, hlast⟩ := hsolid.last
      rw [bytes_text (Source.isValid_behind_ascii hb hfirst) (Source.isValid_of_ascii hc hlast)
        (by simp only [Span.unquoted]; omega)]
      exact Source.between_inner hsolid.fits (hsolid.bytes_text.symm.trans hword)
    have hbytes : (Source.ofString (t.text (.ofString text))).bytes =
        (literal ((Source.ofString text).text t.span.unquoted)).bytes := by
      rw [bytes_literal, ← Source.bytes_ofString, hinner, hword, List.cons_append]
    have hdecoded := congrArg decoded hbytes
    rwa [decoded_bytes, literal, decoded_bytes] at hdecoded
  rw [htext] at hlexeme
  exact ⟨htext, ((literal_iff _).mp hlexeme.next_alone).2.1⟩

/-- The scanner and the decoding of contents agree. Contents between quotes are one literal just if
they have no line feed, can be decoded and have no quote that is not escaped, so what a literal says
can always be decoded. If decoding fails at a backslash with a character behind it, and no quote
ends the literal before, the scanner reports that backslash and the character. Every text can be
written as a literal: with its characters escaped where they have an escape it is one literal and is
decoded to itself. In a source that is not too long the checks of the scanner find nothing. -/
theorem scan_agrees_decode :
    (∀ raw : String, next (literal raw).bytes 0 = ⟨.string, 0, (literal raw).size⟩ ↔
      '\n' ∉ raw.toList ∧ (∃ text, decode raw = .ok text) ∧ bareQuotes false 0 raw.toList = []) ∧
    (∀ (text : String) (ts : List Token), tokenize (.ofString text) = .ok ts → ∀ t ∈ ts,
      t.kind = .string → t.text (.ofString text) = "\"" ++ (Source.ofString text).text
        t.span.unquoted ++ "\"" ∧ ∃ out, decode ((Source.ofString text).text t.span.unquoted) =
        .ok out) ∧
    (∀ (raw : String) (e : Error), decode raw = .error e → '\n' ∉ raw.toList →
      e.offset + 1 < (Source.ofString raw).size →
      (∀ q ∈ bareQuotes false 0 raw.toList, e.offset ≤ q) →
      next (literal raw).bytes 0 = ⟨.unknownEscape, e.offset + 1, e.offset + 2 +
        e.found.utf8Size⟩) ∧
    (∀ text : String, decode (encode text) = .ok text ∧
      tokenize (literal (encode text)) =
        .ok [⟨.string, 0, (literal (encode text)).size⟩,
          ⟨.eof, .point (literal (encode text)).size⟩]) ∧
    ∀ (src src' : Source), src.sized = .ok src' →
      read src'.bytes 0 = .ok (next src.bytes 0) ∧
        ∀ ts, tokenize src = .ok ts → readAll src'.bytes 0 = .ok ts := by
  refine ⟨literal_iff, ?_, ?_, ?_, ?_⟩
  · intro text ts htokens t ht hkind
    obtain ⟨rfl, -⟩ := Grammar.tokenize_eq_ok.mp htokens
    exact decode_contents ht hkind
  · intro raw e herror hfeed hbehind hquotes
    rw [Source.size, Source.bytes_ofString] at hbehind
    rw [next_literal, scanContents_of_error (map_eq_error.mp herror) hfeed (by rwa [Nat.zero_add])
      hquotes, ← Nat.add_assoc]
  · intro text
    obtain ⟨hdecode, hquotes, hfeed⟩ := encodeChar_contents text.toList 0
    have hchars : (encode text).toList = text.toList.flatMap encodeChar := String.toList_ofList
    rw [← hchars] at hdecode hquotes hfeed
    have htext : decode (encode text) = .ok text := by
      rw [decode, hdecode]
      simp [Except.map]
    have hnext := (literal_iff (encode text)).mpr ⟨hfeed, ⟨text, htext⟩, hquotes⟩
    refine ⟨htext, Grammar.tokenize_eq_ok.mpr ⟨(scanAll_single hnext (by decide)).symm, ?_⟩⟩
    rw [List.forall_mem_cons, List.forall_mem_singleton]
    exact ⟨rfl, rfl⟩
  · intro src src' hsized
    refine ⟨?_, fun ts htokens => ?_⟩
    · obtain ⟨rfl, hshort⟩ := Source.sized_eq_ok hsized
      exact read_ok ((next_stop_le (Nat.zero_le _)).trans_lt hshort)
    · obtain ⟨rfl, -⟩ := Grammar.tokenize_eq_ok.mp htokens
      exact Source.readAll_of_sized hsized

/-- The characters that have an escape, behind one that has none. -/
def everyEscape : String := "é\x07\x08\r\n\t\x0b\\\"'\x00"

theorem scan_agrees_decode_accents :
    decode "\\\"é" = .ok "\"é" ∧ next (literal "\\\"é").bytes 0 = ⟨.string, 0, 6⟩ ∧
      (Source.ofString "f(\"é\\n\")").text ⟨3, 7⟩ = "é\\n" ∧ (∃ out, decode "é\\n" = .ok out) ∧
      decode "ok\\é\"" = .error ⟨2, 'é'⟩ ∧ next (literal "ok\\é\"").bytes 0 =
      ⟨.unknownEscape, 3, 6⟩ ∧ encode everyEscape = "é\\a\\b\\r\\n\\t\\v\\\\\\\"\\'\\0" ∧
      tokenize (literal (encode everyEscape)) = .ok [⟨.string, 0, 24⟩, ⟨.eof, 24, 24⟩] := by
  obtain ⟨hliteral, hcontents, hfails, hencode, -⟩ := scan_agrees_decode
  have hdecode : decode "\\\"é" = .ok "\"é" := by decide +kernel
  have htext : (Source.ofString "f(\"é\\n\")").text ⟨3, 7⟩ = "é\\n" := by decide +kernel
  have herror : decode "ok\\é\"" = .error ⟨2, 'é'⟩ := by decide +kernel
  have hescapes : encode everyEscape = "é\\a\\b\\r\\n\\t\\v\\\\\\\"\\'\\0" := by decide +kernel
  have htokens : tokenize (.ofString "f(\"é\\n\")") =
      .ok [⟨.identifier, 0, 1⟩, ⟨.leftParen, 1, 2⟩, ⟨.string, 2, 8⟩, ⟨.rightParen, 8, 9⟩,
      ⟨.eof, 9, 9⟩] := by decide +kernel
  refine ⟨hdecode, ?_, htext, ?_, herror, ?_, hescapes, ?_⟩
  · exact (hliteral _).mpr ⟨by decide, ⟨_, hdecode⟩, by decide⟩
  · have hstring := (hcontents _ _ htokens ⟨.string, 2, 8⟩ (by simp) rfl).2
    rwa [show Span.unquoted ⟨2, 8⟩ = ⟨3, 7⟩ from rfl, htext] at hstring
  · exact hfails _ _ herror (by decide) (by decide) (by decide)
  · have hone := (hencode everyEscape).2
    rw [hescapes] at hone ⊢
    exact hone

end MicroCompiler.Token.Escape
