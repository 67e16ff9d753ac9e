import MicroCompiler.Proofs.Scanner.LongestMatch

/-! Tokens keep their kinds and texts when the gaps between them are replaced. The scanner found the
end of a token by what followed it. If a blank follows instead, or nothing, the token does not
become longer, since a lexeme with a blank inside is a string literal, and it does not become
shorter, since it is a lexeme by itself. -/

namespace MicroCompiler.Token

variable {kind : Kind} {bytes word rest after gap : List UInt8}

/-! ### Lexemes in front of a blank -/

theorem not_isBlank_of_isNamePart : ∀ b : UInt8, isNamePart b → isBlank b = false :=
  forall_byte (by decide +kernel)

/-- String literals are the only lexemes with blanks inside. -/
theorem IsLexeme.not_isBlank (h : IsLexeme kind word) (hkind : kind ≠ .string) :
    ∀ b ∈ word, isBlank b = false := by
  have hdigit {b : UInt8} (hb : isDigit b) : isBlank b = false := not_isBlank_of_isNamePart b
    (by simp [isNamePart, hb])
  cases h with
  | @fixed kind spelling hspelling =>
    have hfixed : ∀ k ∈ Kind.keywords ++ Kind.directives ++ Kind.symbols,
        k.spellingBytes.all (!isBlank ·) := by decide
    obtain ⟨hbytes, hmem⟩ := Kind.spelling_cases hspelling
    rw [hbytes]
    simpa using hfixed kind (by simpa [or_assoc] using hmem)
  | name hb hrest _ =>
    exact List.forall_mem_cons.mpr ⟨not_isBlank_of_isNamePart _ (by simp [isNamePart, hb]),
      fun c hc => not_isBlank_of_isNamePart c (hrest c hc)⟩
  | number hnumeral =>
    cases hnumeral with
    | whole _ hdigits => exact fun d hd => hdigit (hdigits d hd)
    | fraction _ hdigits _ hmore =>
      rw [List.forall_mem_append, List.forall_mem_cons]
      exact ⟨fun d hd => hdigit (hdigits d hd), by decide, fun d hd => hdigit (hmore d hd)⟩
  | literal => exact absurd rfl hkind

theorem IsLexeme.isLiteral (h : IsLexeme .string word) :
    ∃ body, IsLiteralBody body ∧ word = quoteByte :: body ++ [quoteByte] := by
  cases h with
  | fixed hspelling => cases hspelling
  | literal hbody => exact ⟨_, hbody, rfl⟩

/-- The lexemes that begin with a quote are the literals. -/
theorem IsLexeme.kind_eq_string_iff {b : UInt8} (h : IsLexeme kind (b :: rest)) :
    kind = .string ↔ b = quoteByte := by
  constructor
  · rintro rfl
    obtain ⟨body, -, hbody⟩ := h.isLiteral
    exact (List.cons.inj hbody).1
  · rintro rfl
    obtain ⟨tail, -, -, hclass⟩ := h.class_of_begins (List.prefix_refl _)
    exact hclass.1

/-- In front of a blank or at the end of the bytes, a lexeme is the longest one. -/
theorem IsLexeme.isLongest (h : IsLexeme kind word) (hafter : ∀ b ∈ after.head?, isBlank b) :
    IsLongest (word ++ after) kind word := by
  by_cases hkind : kind = .string
  · subst hkind
    obtain ⟨body, hbody, rfl⟩ := h.isLiteral
    exact literal_longest hbody after
  · refine ⟨h, List.prefix_append _ _, fun kind' word' h' hbegins => ?_⟩
    by_contra hlt
    obtain ⟨tail, rfl⟩ := List.prefix_of_prefix_length_le (List.prefix_append word after) hbegins
      (Nat.le_of_not_le hlt)
    obtain ⟨b, r, rfl, -⟩ := h.class
    -- the longer lexeme has a blank inside, so it is a literal; but then this one is a literal, too
    by_cases hkind' : kind' = .string
    · exact hkind (h.kind_eq_string_iff.mpr (h'.kind_eq_string_iff.mp hkind'))
    · cases tail with
      | nil => exact hlt (by simp)
      | cons c tail =>
        obtain ⟨behind, rfl⟩ := (List.prefix_append_right_inj _).mp hbegins
        have hblank := h'.not_isBlank hkind' c (by simp)
        rw [hafter c rfl] at hblank
        cases hblank

/-- A lexeme in front of a blank begins no gap. -/
theorem IsLexeme.not_beginsGap (h : IsLexeme kind word) (hafter : ∀ b ∈ after.head?, isBlank b) :
    ¬ BeginsGap (word ++ after) := by
  obtain ⟨b, r, rfl, hclass⟩ := h.class
  rintro (⟨c, hc, hblank⟩ | ⟨tail, htail⟩)
  · obtain rfl : b = c := by simpa using hc
    by_cases hkind : kind = .string
    · obtain rfl := h.kind_eq_string_iff.mp hkind
      exact absurd hblank (by decide)
    · rw [h.not_isBlank hkind b List.mem_cons_self] at hblank
      cases hblank
  · -- the only lexeme that begins with a slash is the slash alone
    obtain ⟨rfl, hrest⟩ := List.cons.inj htail
    have hslash : ∀ k ∈ Kind.symbols, k.spellingBytes.head? = some slashByte →
        k.spellingBytes = [slashByte] := by decide
    obtain ⟨hmem, hspelling⟩ : kind ∈ Kind.symbols ∧ kind.spellingBytes = slashByte :: r := hclass
    have hsingle := hslash kind hmem (by rw [hspelling]; rfl)
    obtain rfl : r = [] := by simpa [hspelling] using hsingle
    obtain rfl : slashByte :: tail = after := hrest
    exact absurd (hafter slashByte rfl) (by decide)

theorem IsLexeme.next_eq {offset : Nat} (h : IsLexeme kind word) (hgap : IsGap (word ++ rest) gap)
    (hrest : ∀ b ∈ rest.head?, isBlank b) (hbytes : bytes.drop offset = gap ++ (word ++ rest)) :
    next bytes offset = ⟨kind, offset + gap.length, offset + gap.length + word.length⟩ := by
  have hstop : ∀ b ∈ rest.head?, isNamePart b = false := by
    intro b hb
    by_contra hpart
    have hblank := not_isBlank_of_isNamePart b (by simpa using hpart)
    rw [hrest b hb] at hblank
    cases hblank
  rw [next_behind_gap hbytes hgap (h.not_beginsGap hrest), (h.isLongest hrest).lexeme_eq fun _ =>
    hstop]
  rfl

/-! ### Bytes laid out anew -/

/-- Lexemes in order, with gaps in front of them and behind the last one. Nothing but a blank
follows a lexeme. -/
inductive Spaced : List (Kind × List UInt8) → List UInt8 → Prop where
  | done {gap : List UInt8} : IsGap [] gap → Spaced [] gap
  | cons {kind : Kind} {gap word rest : List UInt8} {words : List (Kind × List UInt8)} : IsGap
    (word ++ rest) gap → IsLexeme kind word → (∀ b ∈ rest.head?, isBlank b) → Spaced words rest →
    Spaced ((kind, word) :: words) (gap ++ (word ++ rest))

theorem Spaced.single (h : IsLexeme kind word) : Spaced [(kind, word)] word := by
  have hspaced : Spaced [(kind, word)] ([] ++ (word ++ [])) := .cons .nil h (by simp) (.done .nil)
  simpa using hspaced

theorem text_point (src : Source) (offset : Nat) : src.text ⟨offset, offset⟩ = "" := by
  by_cases hle : offset ≤ src.size
  · rw [text_eq_decoded le_rfl hle]
    simp only [Nat.sub_self, List.take_zero]
    decide
  · rw [Source.text, Source.slice?, if_neg (fun h => hle h.2)]
    rfl

/-- Bytes that are laid out so have just these tokens, whatever stands in front. -/
theorem Spaced.scanAll_eq {words : List (Kind × List UInt8)} (h : Spaced words bytes)
    (front : List UInt8) :
      (scanAll (front ++ bytes) front.length).map (fun t => (t.kind, t.text ⟨front ++ bytes⟩)) =
      words.map (fun w => (w.1, decoded w.2)) ++ [(.eof, "")] := by
  induction h generalizing front with
  | @done gap hgap =>
    have hbytes : (front ++ gap).drop front.length = gap ++ [] := by
      rw [List.drop_left, List.append_nil]
    have hnext := next_behind_gap hbytes hgap (by simp [BeginsGap])
    have heof : (next (front ++ gap) front.length).kind = .eof := by rw [hnext]; rfl
    rw [Token.scanAll_eq, if_pos heof, hnext]
    simp only [List.map_cons, List.map_nil, List.nil_append, Token.text, lexeme,
      Nat.add_zero, text_point]
  | @cons kind gap word rest words hgap hword hrest hwords ih =>
    have hbytes : (front ++ (gap ++ (word ++ rest))).drop front.length = gap ++ (word ++ rest) :=
      List.drop_left
    have hnext := hword.next_eq hgap hrest hbytes
    have ih := ih (front ++ gap ++ word)
    simp only [List.append_assoc, List.length_append, ← Nat.add_assoc] at ih
    have htext : (⟨front ++ (gap ++ (word ++ rest))⟩ : Source).text
        ⟨front.length + gap.length, front.length + gap.length + word.length⟩ = decoded word := by
      rw [text_eq_decoded (Nat.le_add_right _ _) (by simp [Source.size]; omega), ← List.drop_drop,
        List.drop_left, List.drop_left, Nat.add_sub_cancel_left, List.take_left]
    rw [Token.scanAll_eq, hnext, if_neg hword.proper.2, List.map_cons, ih]
    simp only [Token.text, htext, List.map_cons, List.cons_append]

/-! ### Texts laid out anew -/

/-- Spaces, tabs, carriage returns and line feeds. -/
def blanks : List Char := [' ', '\t', '\r', '\n']

/-- Blanks, and comments with the line feeds that end them. -/
inductive IsFiller : List Char → Prop where
  | nil : IsFiller []
  | blank {c : Char} {filler : List Char} : c ∈ blanks → IsFiller filler → IsFiller (c :: filler)
  | comment {text filler : List Char} : '\n' ∉ text → IsFiller filler →
    IsFiller ('/' :: '/' :: text ++ '\n' :: filler)

/-- Blanks and comments, a blank first. -/
def IsSeparator (sep : String) : Prop := IsFiller sep.toList ∧ ∃ c ∈ sep.toList.head?, c ∈ blanks

/-- The words in order, with a separator between any two of them. -/
inductive IsJoined : List String → String → Prop where
  | nil : IsJoined [] ""
  | single (word : String) : IsJoined [word] word
  | cons {word next sep text : String} {words : List String} : IsSeparator sep → IsJoined
    (next :: words) text → IsJoined (word :: next :: words) (word ++ sep ++ text)

theorem encoded_blank {c : Char} (h : c ∈ blanks) :
    ∃ b ∈ [32, 9, 13, 10], String.utf8EncodeChar c = [b] := by
  simp only [blanks, List.mem_cons, List.not_mem_nil, or_false] at h
  rcases h with rfl | rfl | rfl | rfl <;> exact ⟨_, by decide, rfl⟩

/-- A filler makes a gap longer. -/
theorem IsFiller.isGap_append {filler : List Char} (h : IsFiller filler) (hgap : IsGap after gap) :
    IsGap after (encoded filler ++ gap) := by
  induction h with
  | nil => exact hgap
  | @blank c filler hc hfiller ih =>
    obtain ⟨b, hb, hbyte⟩ := encoded_blank hc
    rw [encoded_cons, hbyte]
    exact .blank hb ih
  | @comment text filler htext hfiller ih =>
    have hfeed : lineFeedByte ∉ encoded text := by
      intro hmem
      obtain ⟨c, hc, hbyte⟩ := List.mem_flatMap.mp hmem
      obtain rfl : c = '\n' := eq_of_mem_utf8EncodeChar hbyte (by decide) rfl
      exact htext hc
    have hline : IsGap after (lineFeedByte :: (encoded filler ++ gap)) := .blank (by decide) ih
    have hcomment := IsGap.comment hfeed (by simp) hline
    have hslash : String.utf8EncodeChar '/' = [slashByte] := by decide
    have hbreak : String.utf8EncodeChar '\n' = [lineFeedByte] := by decide
    simpa [hslash, hbreak] using hcomment

theorem Spaced.prepend {filler : List Char} {words : List (Kind × List UInt8)}
    (h : Spaced words bytes) (hfiller : IsFiller filler) :
    Spaced words (encoded filler ++ bytes) := by
  cases h with
  | done hgap => exact .done (hfiller.isGap_append hgap)
  | cons hgap hword hrest hwords =>
    rw [← List.append_assoc]
    exact .cons (hfiller.isGap_append hgap) hword hrest hwords

theorem IsSeparator.head {sep : String} (h : IsSeparator sep) (bytes : List UInt8) :
    ∀ b ∈ ((Source.ofString sep).bytes ++ bytes).head?, isBlank b := by
  obtain ⟨-, c, hc, hblank⟩ := h
  obtain ⟨rest, hrest⟩ := List.head?_eq_some_iff.mp hc
  obtain ⟨b, hb, hbyte⟩ := encoded_blank hblank
  rw [Source.bytes_ofString, hrest, encoded_cons, hbyte]
  simpa using isBlank_of_mem_blanks hb

theorem IsJoined.split {word text : String} {words : List String}
    (h : IsJoined (word :: words) text) : words = [] ∧ text = word ∨
      ∃ sep rest, IsSeparator sep ∧ IsJoined words rest ∧ text = word ++ sep ++ rest := by
  cases h with
  | single => exact .inl ⟨rfl, rfl⟩
  | cons hsep hrest => exact .inr ⟨_, _, hsep, hrest, rfl⟩

/-- Tokens whose texts are lexemes and are joined by separators are laid out as the scanner needs
them, be there an empty word at the end or not. -/
theorem IsJoined.spaced {src : Source} {ts : List Token} {last : List String} {text : String}
    (h : IsJoined (ts.map (·.text src) ++ last) text) (hlast : last = [] ∨ last = [""])
    (hts : ∀ t ∈ ts, IsLexeme t.kind (Source.ofString (t.text src)).bytes) :
    Spaced (ts.map fun t => (t.kind, (Source.ofString (t.text src)).bytes))
    (Source.ofString text).bytes := by
  induction ts generalizing text with
  | nil =>
    obtain rfl : text = "" := by
      rcases hlast with rfl | rfl <;> cases h <;> rfl
    exact .done .nil
  | cons t ts ih =>
    rw [List.forall_mem_cons] at hts
    rcases IsJoined.split h with ⟨hnil, rfl⟩ | ⟨sep, rest, hsep, hrest, rfl⟩
    · obtain ⟨hnil, -⟩ := List.append_eq_nil_iff.mp hnil
      obtain rfl := List.map_eq_nil_iff.mp hnil
      exact .single hts.1
    · have hspaced := (ih hrest hts.2).prepend hsep.1
      rw [← Source.bytes_ofString] at hspaced
      rw [Source.bytes_append, Source.bytes_append, List.append_assoc]
      exact .cons .nil hts.1 (hsep.head _) hspaced

/-! ### Tokens of a text -/

/-- The bytes of a well-formed token are a lexeme of its kind. -/
theorem isLexeme_between {src : Source} {t : Token} (hmem : t ∈ src.tokens)
    (hproper : t.kind.isError = false) (heof : t.kind ≠ .eof) :
    IsLexeme t.kind (src.between t.span.start t.span.stop) := by
  obtain ⟨offset, -, rfl⟩ := mem_scanAll hmem
  obtain ⟨gap, word, after, hbytes, -, -, hspan, hlongest, -⟩ := exists_longest_of_next hproper heof
  have hword : src.between (offset + gap.length) (offset + gap.length + word.length) = word := by
    rw [Source.between, ← List.drop_drop, hbytes, List.drop_left, Nat.add_sub_cancel_left,
      List.take_left]
  rw [hspan, hword]
  exact hlongest.isLexeme

/-- The text of a well-formed token is a lexeme of its kind. -/
theorem isLexeme_text {text : String} {t : Token}
    (hmem : t ∈ scanAll (Source.ofString text).bytes 0)
    (hproper : t.kind.isError = false) (heof : t.kind ≠ .eof) :
    IsLexeme t.kind (Source.ofString (t.text (.ofString text))).bytes := by
  have hsolid : t.Solid (.ofString text) := by
    obtain ⟨offset, -, rfl⟩ := mem_scanAll hmem
    exact solid_next hproper heof
  rw [hsolid.bytes_text]
  exact isLexeme_between hmem hproper heof

theorem decoded_bytes (text : String) : decoded (Source.ofString text).bytes = text := by
  have hvalid : (⟨(Source.ofString text).bytes.toArray⟩ : ByteArray).IsValidUTF8 := text.isValidUTF8
  have hbytes := bytes_decoded (Source.ofString text).bytes
  rw [if_pos hvalid] at hbytes
  exact String.toByteArray_inj.mp (ByteArray.ext (Array.ext' hbytes))

/-- Bytes that are one token from end to end have no other one. -/
theorem scanAll_single (h : next bytes 0 = ⟨kind, 0, bytes.length⟩) (hkind : kind ≠ .eof) :
    scanAll bytes 0 = [⟨kind, 0, bytes.length⟩, ⟨.eof, .point bytes.length⟩] := by
  have hend : next bytes bytes.length = ⟨.eof, .point bytes.length⟩ := by
    simp [next, gapLength, lexeme, Span.point]
  rw [Token.scanAll_eq, h, if_neg hkind, Token.scanAll_eq, hend, if_pos rfl]

theorem IsLexeme.next_alone (h : IsLexeme kind word) : next word 0 = ⟨kind, 0, word.length⟩ := by
  have hbytes : word.drop 0 = [] ++ (word ++ []) := by simp
  simpa using h.next_eq .nil (by simp) hbytes

/-- Joining the tokens of a text gives a text with the same tokens. -/
theorem relaid_of_isJoined {text respaced : String}
    (hproper : ∀ t ∈ (Source.ofString text).tokens, t.kind.isError = false)
    (h : IsJoined ((Source.ofString text).tokens.map (·.text (.ofString text))) respaced ∨
      IsJoined ((Source.ofString text).tokens.dropLast.map (·.text (.ofString text))) respaced) :
    Relaid (.ofString text) (.ofString respaced) := by
  refine ⟨hproper, ?_⟩
  obtain ⟨init, hinit, hsolid⟩ := (scanAll_laid (Nat.zero_le _) hproper).ends
  change (Source.ofString text).tokens = _ at hinit
  have hend : Token.text ⟨.eof, .point (Source.ofString text).size⟩ (.ofString text) = "" :=
    text_point _ _
  have hlexemes : ∀ t ∈ init, IsLexeme t.kind (Source.ofString
      (t.text (.ofString text))).bytes := by
    intro t ht
    have hmem : t ∈ (Source.ofString text).tokens := by simp [hinit, ht]
    exact isLexeme_text hmem (hproper t hmem) (hsolid t ht).1
  have hspaced : Spaced (init.map fun t =>
    (t.kind, (Source.ofString (t.text (.ofString text))).bytes))
      (Source.ofString respaced).bytes := by
    rw [hinit, List.map_append, List.dropLast_concat, List.map_singleton, hend] at h
    rcases h with hjoined | hjoined
    · exact hjoined.spaced (.inr rfl) hlexemes
    · exact IsJoined.spaced (by rwa [List.append_nil]) (.inl rfl) hlexemes
  have hscan := hspaced.scanAll_eq []
  simp only [List.map_map, Function.comp_def, decoded_bytes] at hscan
  rw [hinit, List.map_append, List.map_singleton, hend]
  exact hscan.symm

/-- The tokens of a text can be joined by any separators: the text that this gives has tokens of the
same kinds and with the same texts. The end of the file counts as an empty word at the end or not at
all. If the text is not too long to be scanned, the checks of the scanner find nothing. Each token
alone is scanned as itself. -/
theorem tokenize_respaced {text : String} {ts : List Token}
    (h : tokenize (.ofString text) = .ok ts) : (∀ respaced : String,
      IsJoined (ts.map (·.text (.ofString text))) respaced ∨
      IsJoined (ts.dropLast.map (·.text (.ofString text))) respaced →
      ∃ ts', tokenize (.ofString respaced) = .ok ts' ∧
        ts'.map (fun t => (t.kind, t.text (.ofString respaced))) =
          ts.map (fun t => (t.kind, t.text (.ofString text))) ∧
        ∀ src, (Source.ofString respaced).sized = .ok src → readAll src.bytes 0 = .ok ts') ∧
    ∀ t ∈ ts, t.kind ≠ .eof →
      tokenize (.ofString (t.text (.ofString text))) =
        .ok [⟨t.kind, 0, (Source.ofString (t.text (.ofString text))).size⟩,
          ⟨.eof, .point (Source.ofString (t.text (.ofString text))).size⟩] := by
  obtain ⟨rfl, hproper⟩ := Grammar.tokenize_eq_ok.mp h
  constructor
  · intro respaced hjoined
    have hrelaid := relaid_of_isJoined hproper hjoined
    exact ⟨(Source.ofString respaced).tokens,
      Grammar.tokenize_eq_ok.mpr ⟨rfl, hrelaid.symm.proper⟩, hrelaid.same.symm,
      fun src hsized => Source.readAll_of_sized hsized⟩
  · intro t ht heof
    have hlexeme := isLexeme_text ht (hproper t ht) heof
    refine Grammar.tokenize_eq_ok.mpr ⟨(scanAll_single hlexeme.next_alone heof).symm, ?_⟩
    rw [List.forall_mem_cons, List.forall_mem_singleton]
    exact ⟨hlexeme.proper.1, rfl⟩

/-- A comment behind a slash, where it needs a blank in front. -/
theorem tokenize_respaced_slash :
    tokenize (.ofString "1./x") =
        .ok [⟨.number, 0, 1⟩, ⟨.dot, 1, 2⟩, ⟨.slash, 2, 3⟩, ⟨.identifier, 3, 4⟩, ⟨.eof, 4, 4⟩] ∧
      IsJoined ["1", ".", "/", "x"] "1 .\n/\t// é\nx" ∧
      (∃ ts', tokenize (.ofString "1 .\n/\t// é\nx") = .ok ts' ∧
        ts'.map (fun t => (t.kind, t.text (.ofString "1 .\n/\t// é\nx"))) =
          [(.number, "1"), (.dot, "."), (.slash, "/"), (.identifier, "x"), (.eof, "")]) ∧
      tokenize (.ofString (Token.text ⟨.slash, 2, 3⟩ (.ofString "1./x"))) =
      .ok [⟨.slash, 0, 1⟩, ⟨.eof, 1, 1⟩] := by
  have htokens : tokenize (.ofString "1./x") =
      .ok [⟨.number, 0, 1⟩, ⟨.dot, 1, 2⟩, ⟨.slash, 2, 3⟩, ⟨.identifier, 3, 4⟩, ⟨.eof, 4, 4⟩] := by
      decide +kernel
  have hspace : IsSeparator " " := ⟨.blank (by decide) .nil, ' ', rfl, by decide⟩
  have hbreak : IsSeparator "\n" := ⟨.blank (by decide) .nil, '\n', rfl, by decide⟩
  have hcomment : IsSeparator "\t// é\n" :=
    ⟨.blank (by decide) (@IsFiller.comment [' ', 'é'] [] (by decide) .nil), '\t', rfl, by decide⟩
  have hjoined : IsJoined ["1", ".", "/", "x"] "1 .\n/\t// é\nx" :=
    .cons hspace (.cons hbreak (.cons hcomment (.single "x")))
  have htexts : ([⟨.number, 0, 1⟩, ⟨.dot, 1, 2⟩, ⟨.slash, 2, 3⟩, ⟨.identifier,
    3, 4⟩] : List Token).map
      (·.text (.ofString "1./x")) = ["1", ".", "/", "x"] := by decide +kernel
  obtain ⟨hrespaced, halone⟩ := tokenize_respaced htokens
  obtain ⟨ts', htokens', hsame, -⟩ := hrespaced _ (.inr (htexts ▸ hjoined))
  refine ⟨htokens, hjoined, ⟨ts', htokens', hsame.trans (by decide +kernel)⟩, ?_⟩
  rw [halone ⟨.slash, 2, 3⟩ (by simp) (by decide)]
  decide +kernel

end MicroCompiler.Token
