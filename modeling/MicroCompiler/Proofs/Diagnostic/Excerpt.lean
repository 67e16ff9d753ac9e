import Mathlib.Data.List.Forall2
import MicroCompiler.Diagnostic.Excerpt
import MicroCompiler.Proofs.Source.Places

/-! Excerpts of diagnostics. The last two rows of an excerpt are a line of the source and carets.
What precedes the first caret is as long as what precedes the place of the diagnostic in the row
above and has its tabs, and there are as many carets as characters of the span are shown, but at
least one. That holds where columns are not cut. Main statement: `excerpt_aligned`. -/

namespace MicroCompiler

/-! ### Characters in a range -/

/-- The offsets at which characters begin that stand from `offset` on. -/
def beginnings (offset : Nat) : List Char → List Nat
  | [] => []
  | c :: chars => offset :: beginnings (offset + c.utf8Size) chars

/-- Whether an offset lies in a span. -/
def Span.covers (s : Span) (offset : Nat) : Bool := s.start ≤ offset && offset < s.stop

theorem beginnings_append (offset : Nat) (xs ys : List Char) :
    beginnings offset (xs ++ ys) = beginnings offset xs ++
    beginnings (offset + (encoded xs).length) ys := by
  induction xs generalizing offset with
  | nil => rfl
  | cons c xs ih =>
    rw [List.cons_append, beginnings, beginnings, ih, length_encoded_cons, ← Nat.add_assoc]
    rfl

theorem length_beginnings (offset : Nat) (chars : List Char) :
    (beginnings offset chars).length = chars.length := by
  induction chars generalizing offset with
  | nil => rfl
  | cons c chars ih => rw [beginnings, List.length_cons, ih, List.length_cons]

theorem beginnings_bounds {offset q : Nat} {chars : List Char} (h : q ∈ beginnings offset chars) :
    offset ≤ q ∧ q < offset + (encoded chars).length := by
  induction chars generalizing offset with
  | nil => simp [beginnings] at h
  | cons c chars ih =>
    have hpos := c.utf8Size_pos
    rw [length_encoded_cons]
    rcases List.mem_cons.mp h with rfl | h
    · omega
    · have hrest := ih h
      omega

/-- The characters that begin in a range between characters are those of the piece it covers. -/
theorem countP_beginnings {p : Nat → Bool} {before piece after : List Char}
    (hp : ∀ q, p q = true ↔ (encoded before).length ≤ q ∧ q < (encoded (before ++ piece)).length) :
    (beginnings 0 (before ++ piece ++ after)).countP p = piece.length := by
  have hbefore : (beginnings 0 before).countP p = 0 := by
    rw [List.countP_eq_zero]
    intro q hq
    have hbounds := beginnings_bounds hq
    rw [hp]
    omega
  have hpiece : (beginnings (0 + (encoded before).length) piece).countP p = piece.length := by
    rw [← length_beginnings (0 + (encoded before).length) piece, List.countP_eq_length]
    intro q hq
    have hbounds := beginnings_bounds hq
    rw [hp, encoded_append, List.length_append]
    omega
  have hafter : (beginnings (0 + (encoded (before ++ piece)).length) after).countP p = 0 := by
    rw [List.countP_eq_zero]
    intro q hq
    have hbounds := beginnings_bounds hq
    rw [hp]
    omega
  rw [beginnings_append, beginnings_append, List.countP_append, List.countP_append, hbefore, hpiece,
    hafter, Nat.zero_add, Nat.add_zero]

namespace Diagnostic

open Lines (ofSource)

/-! ### Excerpts can always be drawn -/

theorem padding_eq (line : String) {column : Nat} (h : 1 ≤ column) : padding line column =
    .ok (String.ofList ((line.toList.take (column - 1)).map fun c =>
      if c = '\t' then '\t' else ' ')) := by
  simp only [padding, minus_of_le h, bind, Except.bind, pure, Except.pure]

theorem caretCount_eq (src : Source) (s : Span) (line : String) {column : Nat} (h : 1 ≤ column) :
    caretCount src s line column = .ok (max 1 (min ((src.text s).toList.takeWhile (· ≠ '\n')).length
      (line.length - (column - 1)))) := by
  simp only [caretCount, minus_of_le h, bind, Except.bind, pure, Except.pure]

theorem excerpt_eq {d : Diagnostic} {src : Source} {line column : Nat} (path : String)
    (h : (ofSource src).place src d.span.start = .ok (line, column)) {count : Nat} {blanks : String}
    (hcount : caretCount src d.span ((ofSource src).text src line) column = .ok count)
    (hblanks : padding ((ofSource src).text src line) column = .ok blanks) :
    d.excerpt path src =
      .ok (d.drawn path line column ((ofSource src).text src line) blanks count) := by
  simp only [excerpt, h, hcount, hblanks, bind, Except.bind, pure, Except.pure]

theorem excerpt_ok (d : Diagnostic) (path : String) (src : Source) :
    ∃ drawn, d.excerpt path src = .ok drawn := by
  obtain ⟨column, hplace, hcolumn, -⟩ := Lines.place_ok src d.span.start
  exact ⟨_, excerpt_eq path hplace (caretCount_eq _ _ _ hcolumn) (padding_eq _ hcolumn)⟩

/-! ### The line that is shown -/

variable {d : Diagnostic} {text : String} {above lead tail rest covered after : List Char}

/-- The range of the source that an excerpt shows: the line of the diagnostic without its
terminators. -/
def shown (d : Diagnostic) (src : Source) : Span :=
  let line := (ofSource src).lineOf d.span.start
  let start := ((ofSource src).start? line).getD 0
  ⟨start, start + (Source.ofString ((ofSource src).text src line)).size⟩

/-- The number of characters of a diagnostic's span that its excerpt shows. -/
def visible (d : Diagnostic) (text : String) : Nat :=
  (beginnings 0 text.toList).countP fun q => d.span.covers q && (d.shown (.ofString text)).covers q

theorem shown_eq {chars : List Char} (hsplit : text.toList = above ++ rest)
    (hends : ∀ c ∈ above.getLast?, c = '\n') (hle : (encoded above).length ≤ Lines.top)
    (hline : (ofSource (.ofString text)).lineOf d.span.start = 1 + above.count '\n')
    (htext : (ofSource (.ofString text)).text (.ofString text) (1 + above.count '\n') =
      String.ofList chars) :
    d.shown (.ofString text) = ⟨(encoded above).length, (encoded (above ++ chars)).length⟩ := by
  simp only [shown, hline, htext, Lines.start?_encoded hsplit hends, Lines.clamp_of_le hle,
    Option.getD_some, Source.size_ofString, String.toList_ofList, encoded_append,
    List.length_append]

/-- A text around the start of a diagnostic: the lines above, what is shown of its line before the
start and from there on, and the rest. -/
structure Situated (d : Diagnostic) (text : String) (above lead tail rest : List Char) : Prop where
  split : text.toList = above ++ lead ++ (tail ++ rest)
  start : d.span.start = (encoded (above ++ lead)).length
  unbroken : '\n' ∉ lead ++ tail
  place : (ofSource (.ofString text)).place (.ofString text) d.span.start =
    .ok (1 + above.count '\n', 1 + lead.length)
  number : (ofSource (.ofString text)).lineOf d.span.start = 1 + above.count '\n'
  line : (ofSource (.ofString text)).text (.ofString text) (1 + above.count '\n') =
    String.ofList (lead ++ tail)
  shown : d.shown (.ofString text) = ⟨(encoded above).length,
    (encoded (above ++ lead ++ tail)).length⟩

theorem exists_situated (hstart : (⟨d.span.start⟩ : String.Pos.Raw).IsValid text)
    (hlt : d.span.start < Lines.top) (hle : d.span.start ≤ (d.shown (.ofString text)).stop) :
    ∃ above lead tail rest, d.Situated text above lead tail rest := by
  obtain ⟨before, behind, hsplit, hoffset⟩ := Source.isValid_iff_encoded.mp hstart
  obtain ⟨above, lead, rfl, hends, hlead⟩ := Lines.exists_lead '\n' before
  obtain ⟨middle, below, rfl, hmiddle, hbelow⟩ := Lines.exists_tail '\n' behind
  rw [hoffset] at hlt
  have habove : (encoded above).length ≤ Lines.top := by
    rw [encoded_append, List.length_append] at hlt
    omega
  have hplace := Lines.place_eq_of_lt hsplit hends hlead hlt
  have hline := Lines.lineOf_encoded hsplit hlead hlt
  rw [← hoffset] at hplace hline
  have hbody : '\n' ∉ lead ++ middle := by simp [hlead, hmiddle]
  have hwhole : text.toList = above ++ (lead ++ middle) ++ below := by simp [hsplit]
  obtain ⟨chars, trail, htrail, htext⟩ := Lines.text_prefix hwhole hends hbody hbelow habove
  have hshown := shown_eq (hsplit.trans (List.append_assoc above lead _)) hends habove hline htext
  -- The start lies in what is shown, so what is shown begins with what stands before the start.
  rw [hshown, hoffset] at hle
  have hsame : above ++ lead ++ (middle ++ below) = above ++ chars ++ (trail ++ below) := by
    rw [← List.append_assoc, List.append_assoc above, htrail]
    simp
  obtain ⟨tail, htail⟩ := exists_more_of_encoded_le hsame hle
  obtain rfl : chars = lead ++ tail := by simpa using htail
  refine ⟨above, lead, tail, trail ++ below, ?_, hoffset, ?_, hplace, hline, htext, ?_⟩
  · rw [hsplit, hsame, htail, List.append_assoc _ tail]
  · intro hmem
    rw [htrail] at hbody
    exact hbody (List.mem_append_left _ hmem)
  · rw [hshown, htail]

/-- What a span covers from its start on. -/
theorem Situated.exists_covered (h : d.Situated text above lead tail rest)
    (hstop : (⟨d.span.stop⟩ : String.Pos.Raw).IsValid text) (hle : d.span.start ≤ d.span.stop) :
    ∃ covered after, tail ++ rest = covered ++ after ∧
      d.span.stop = (encoded (above ++ lead ++ covered)).length := by
  obtain ⟨before, after, hbefore, hoffset⟩ := Source.isValid_iff_encoded.mp hstop
  have hsame := h.split.symm.trans hbefore
  rw [h.start, hoffset] at hle
  obtain ⟨covered, rfl⟩ := exists_more_of_encoded_le hsame hle
  rw [List.append_assoc _ covered, List.append_right_inj] at hsame
  exact ⟨covered, after, hsame, hoffset⟩

/-! ### The carets -/

/-- What the span covers and what is shown from its start on have the shorter of the two in
common. -/
theorem Situated.visible_eq (h : d.Situated text above lead tail rest)
    (hcovered : tail ++ rest = covered ++ after)
    (hstop : d.span.stop = (encoded (above ++ lead ++ covered)).length) :
    d.visible text = min covered.length tail.length := by
  have hpiece : ∀ piece behind, tail ++ rest = piece ++ behind →
      min d.span.stop (encoded (above ++ lead ++ tail)).length =
      (encoded (above ++ lead ++ piece)).length → d.visible text = piece.length := by
    intro piece behind hsame hmin
    rw [visible, h.split, hsame, ← List.append_assoc]
    apply countP_beginnings
    intro q
    have habove : (encoded above).length ≤ (encoded (above ++ lead)).length := by
      rw [encoded_append, List.length_append]
      omega
    rw [Bool.and_eq_true, Span.covers, Span.covers, h.shown, h.start]
    simp only [Bool.and_eq_true, decide_eq_true_eq]
    omega
  rcases List.prefix_or_prefix_of_prefix ⟨after, hcovered.symm⟩ (List.prefix_append tail rest) with
    ⟨more, rfl⟩ | ⟨more, rfl⟩
  · rw [hpiece covered after hcovered, List.length_append]
    · omega
    · rw [hstop, ← List.append_assoc, encoded_append _ more, List.length_append]
      omega
  · rw [hpiece tail rest rfl, List.length_append]
    · omega
    · rw [hstop, ← List.append_assoc, encoded_append _ more, List.length_append]
      omega

theorem Situated.caretCount_eq (h : d.Situated text above lead tail rest)
    (hcovered : tail ++ rest = covered ++ after)
    (hstop : d.span.stop = (encoded (above ++ lead ++ covered)).length) :
    caretCount (.ofString text) d.span (String.ofList (lead ++ tail)) (1 + lead.length) =
      .ok (max 1 (d.visible text)) := by
  have hspan : (Source.ofString text).text d.span = String.ofList covered := by
    have hsplit : text.toList = above ++ lead ++ covered ++ after := by
      rw [h.split, hcovered, List.append_assoc _ covered]
    rw [Source.text, h.start, hstop, Source.slice?_encoded hsplit, Option.getD_some]
  have hremaining : (String.ofList (lead ++ tail)).length - (1 + lead.length - 1) =
      tail.length := by
    rw [String.length_ofList, List.length_append]
    omega
  have htail : ∀ c ∈ tail, decide (c ≠ '\n') = true := by
    intro c hc
    exact decide_eq_true fun heq => h.unbroken (List.mem_append_right _ (heq ▸ hc))
  -- A line feed of the span stands behind all that is shown.
  have hmin : min (covered.takeWhile (· ≠ '\n')).length tail.length =
      min covered.length tail.length := by
    rcases List.prefix_or_prefix_of_prefix ⟨after, hcovered.symm⟩ (List.prefix_append tail
      rest) with ⟨more, rfl⟩ | ⟨more, rfl⟩
    · rw [List.takeWhile_eq_self_iff.mpr fun c hc => htail c (List.mem_append_left _ hc)]
    · rw [List.takeWhile_append_of_pos htail, List.length_append, List.length_append]
      omega
  rw [h.visible_eq hcovered hstop, Diagnostic.caretCount_eq _ _ _ (Nat.le_add_right 1 _), hspan,
    hremaining, String.toList_ofList, hmin]

/-- One row under the other: as many characters, and tabs in the same columns with blanks in
between. -/
def Pads (pad lead : List Char) : Prop :=
  List.Forall₂ (fun b c => (b = '\t' ↔ c = '\t') ∧ (b = '\t' ∨ b = ' ')) pad lead

theorem padding_pads (line : String) {column : Nat} (h : 1 ≤ column) : ∃ blanks : String,
    padding line column = .ok blanks ∧ Pads blanks.toList (line.toList.take (column - 1)) := by
  refine ⟨_, padding_eq line h, ?_⟩
  rw [String.toList_ofList, Pads, List.forall₂_map_left_iff, List.forall₂_same]
  intro c hc
  by_cases htab : c = '\t'
  · simp [htab]
  · simp [htab]

theorem Pads.not_mem {pad lead : List Char} {c : Char} (h : Pads pad lead) (htab : c ≠ '\t')
    (hblank : c ≠ ' ') : c ∉ pad := by
  induction h with
  | nil => simp
  | cons hhead _ ih =>
    rw [List.mem_cons, not_or]
    refine ⟨?_, ih⟩
    rintro rfl
    rcases hhead.2 with heq | heq
    · exact htab heq
    · exact hblank heq

/-! ### The rows -/

/-- The last two rows of an excerpt. -/
theorem toList_drawn (d : Diagnostic) (path : String) (line column : Nat) (text blanks : String)
    (count : Nat) : ∃ head : List Char, (∀ c ∈ head.getLast?, c = '\n') ∧
      (d.drawn path line column text blanks count).toList =
        head ++ ((toString line).toList ++ [' ', '|', ' '] ++ text.toList) ++
          '\n' :: (List.replicate (toString line).length ' ' ++ [' ', '|', ' '] ++ blanks.toList ++
            List.replicate count '^') ++ ['\n'] := by
  obtain ⟨message, place, hrows⟩ : ∃ message place : String,
    d.drawn path line column text blanks count =
      message ++ place ++ (String.ofList (List.replicate (toString line).length ' ') ++ " |\n") ++
        (toString line ++ " | " ++ text ++ "\n") ++
        (String.ofList (List.replicate (toString line).length ' ') ++ " | " ++ blanks ++
          String.ofList (List.replicate count '^') ++ "\n") := ⟨_, _, rfl⟩
  refine ⟨(message ++ place ++ (String.ofList (List.replicate (toString line).length ' ') ++
    " |\n")).toList, ?_, ?_⟩
  · simp
  · simp [hrows]

/-- The last two rows around the start of a diagnostic. -/
theorem Situated.toList_excerpt (h : d.Situated text above lead tail rest)
    (hcovered : tail ++ rest = covered ++ after)
    (hstop : d.span.stop = (encoded (above ++ lead ++ covered)).length) (path : String) :
    ∃ (drawn : String) (head pad : List Char), d.excerpt path (.ofString text) = .ok drawn ∧
      (∀ c ∈ head.getLast?, c = '\n') ∧ Pads pad lead ∧
      drawn.toList =
        head ++ ((toString (1 + above.count '\n')).toList ++ [' ', '|', ' '] ++ (lead ++ tail)) ++
          '\n' :: (List.replicate (toString (1 + above.count '\n')).length ' ' ++ [' ', '|', ' '] ++
            pad ++ List.replicate (max 1 (d.visible text)) '^') ++ ['\n'] := by
  obtain ⟨blanks, hblanks, hpads⟩ :=
    padding_pads (String.ofList (lead ++ tail)) (Nat.le_add_right 1 lead.length)
  rw [String.toList_ofList, Nat.add_sub_cancel_left, List.take_left] at hpads
  obtain ⟨head, hhead, hrows⟩ := toList_drawn d path (1 + above.count '\n') (1 + lead.length)
    (String.ofList (lead ++ tail)) blanks (max 1 (d.visible text))
  rw [String.toList_ofList] at hrows
  have hcount := h.caretCount_eq hcovered hstop
  rw [← h.line] at hcount hblanks hrows
  exact ⟨_, head, _, excerpt_eq path h.place hcount hblanks, hhead, hpads, hrows⟩

/-- The last two rows of an excerpt are the line, behind its number, and the carets. As many
characters precede the first caret as precede the start in the row above, with tabs under the tabs
of the line and blanks under its other characters; and the carets are as many as characters of the
span are shown, but at least one. -/
def Aligned (d : Diagnostic) (path text : String) : Prop :=
  ∃ (drawn : String) (head number lead tail gutter pad : List Char),
    d.excerpt path (.ofString text) = .ok drawn ∧
    drawn.toList = head ++ (number ++ (lead ++ tail)) ++
      '\n' :: (gutter ++ pad ++ List.replicate (max 1 (d.visible text)) '^') ++ ['\n'] ∧
    (∀ c ∈ head.getLast?, c = '\n') ∧ '\n' ∉ number ++ (lead ++ tail) ∧ '\n' ∉ gutter ++ pad ∧
    (Source.ofString text).slice? (d.shown (.ofString text)).start d.span.start =
      some (String.ofList lead) ∧
    (Source.ofString text).slice? d.span.start (d.shown (.ofString text)).stop =
      some (String.ofList tail) ∧
    (d.span.start < (d.shown (.ofString text)).stop → ∃ c behind, tail = c :: behind) ∧
    number = (toString ((ofSource (.ofString text)).lineOf d.span.start)).toList ++
      [' ', '|', ' '] ∧
    lead ++ tail = ((ofSource (.ofString text)).text (.ofString text)
      ((ofSource (.ofString text)).lineOf d.span.start)).toList ∧
    gutter.length = number.length ∧ '^' ∉ gutter ++ pad ∧ Pads pad lead

/-- The excerpt of a diagnostic is aligned if its span lies between characters, with the start in
the line that is shown or right behind it, and below the largest 32-bit number, up to which columns
count. A start inside a line of a source of at most so many bytes always is. Whatever the span and
the source are, the excerpt can be drawn. -/
theorem excerpt_aligned :
    (∀ (d : Diagnostic) (path text : String), (⟨d.span.start⟩ : String.Pos.Raw).IsValid text →
      (⟨d.span.stop⟩ : String.Pos.Raw).IsValid text → d.span.start ≤ d.span.stop →
      d.span.start ≤ (d.shown (.ofString text)).stop → d.span.start < Lines.top →
      d.Aligned path text) ∧
    ∀ (d : Diagnostic) (path : String) (src : Source), ∃ drawn, d.excerpt path src = .ok drawn := by
  refine ⟨?_, excerpt_ok⟩
  intro d path text hstart hstop hle hshown hlt
  obtain ⟨above, lead, tail, rest, h⟩ := exists_situated hstart hlt hshown
  obtain ⟨covered, after, hcovered, hoffset⟩ := h.exists_covered hstop hle
  obtain ⟨drawn, head, pad, hdrawn, hhead, hpads, hrows⟩ := h.toList_excerpt hcovered hoffset path
  have hfeed := hpads.not_mem (show '\n' ≠ '\t' by decide) (by decide)
  have hcaret := hpads.not_mem (show '^' ≠ '\t' by decide) (by decide)
  have hdigits := not_mem_toString (show '\n'.isDigit = false from rfl) (1 + above.count '\n')
  rw [← h.number] at hrows hdigits
  unfold Aligned
  generalize toString ((ofSource (.ofString text)).lineOf d.span.start) = digits at hrows hdigits ⊢
  refine ⟨drawn, head, _, lead, tail, _, pad, hdrawn, hrows, hhead, ?_, ?_, ?_, ?_, ?_,
    rfl, ?_, ?_, ?_, hpads⟩
  · simp [hdigits, h.unbroken]
  · simp [hfeed]
  · rw [h.shown, h.start, Source.slice?_encoded h.split]
  · have hsplit : text.toList = above ++ lead ++ tail ++ rest := by
      rw [h.split, List.append_assoc _ tail]
    rw [h.shown, h.start, Source.slice?_encoded hsplit]
  · rw [h.shown, h.start]
    intro hbehind
    cases tail with
    | nil => simp at hbehind
    | cons c behind => exact ⟨c, behind, rfl⟩
  · rw [h.number, h.line, String.toList_ofList]
  · simp [String.length_toList]
  · simp [hcaret]

/-- From a letter of two bytes behind a tab to the end of the text, which is in the next line. -/
def tabbedError : Diagnostic := ⟨.unexpectedToken, ⟨3, 12⟩, "oops"⟩

def tabbedText : String := "a\n\té = 1\r\nb"

theorem excerpt_aligned_tabbed :
    (⟨3⟩ : String.Pos.Raw).IsValid tabbedText ∧ (⟨12⟩ : String.Pos.Raw).IsValid tabbedText ∧
      tabbedError.shown (.ofString tabbedText) = ⟨2, 9⟩ ∧ tabbedError.visible tabbedText = 5 ∧
      (∃ (drawn : String) (head number lead tail gutter pad : List Char),
        tabbedError.excerpt "t.c6" (.ofString tabbedText) = .ok drawn ∧
        drawn.toList = head ++ (number ++ (lead ++ tail)) ++
          '\n' :: (gutter ++ pad ++ List.replicate 5 '^') ++ ['\n'] ∧
        (∃ c behind, tail = c :: behind) ∧ gutter.length = number.length ∧ Pads pad lead) ∧
      tabbedError.excerpt "t.c6" (.ofString tabbedText) =
        .ok "error[E1001]: oops\n --> t.c6:2:2\n  |\n2 | \té = 1\n  | \t^^^^^\n" := by
  have hbytes : (Source.ofString tabbedText).bytes =
      [97, 10, 9, 195, 169, 32, 61, 32, 49, 13, 10, 98] := by decide +kernel
  have hstart : (⟨3⟩ : String.Pos.Raw).IsValid tabbedText :=
    Source.isValid_behind_ascii (b := 9) (by rw [hbytes]; rfl) (by decide)
  have hstop : (⟨12⟩ : String.Pos.Raw).IsValid tabbedText :=
    Source.isValid_behind_ascii (b := 98) (by rw [hbytes]; rfl) (by decide)
  have hshown : tabbedError.shown (.ofString tabbedText) = ⟨2, 9⟩ := by decide +kernel
  have hvisible : tabbedError.visible tabbedText = 5 := by decide +kernel
  obtain ⟨drawn, head, number, lead, tail, gutter, pad, hdrawn, hrows, -, -, -, -, -, htail, -, -,
    hgutter, -, hpads⟩ := excerpt_aligned.1 tabbedError "t.c6" tabbedText hstart hstop (by decide)
      (by rw [hshown]; decide) (by decide)
  rw [hvisible] at hrows
  refine ⟨hstart, hstop, hshown, hvisible,
    ⟨drawn, head, number, lead, tail, gutter, pad, hdrawn, hrows, ?_, hgutter, hpads⟩, ?_⟩
  · exact htail (by rw [hshown]; decide)
  · decide +kernel

/-! ### A column that is cut -/

/-- What precedes the carets in the last row. -/
def margin (rows : List Char) : List Char :=
  (rows.dropLast.rtakeWhile (· ≠ '\n')).takeWhile (· ≠ '^')

theorem margin_eq {rows before : List Char} (hfeed : '\n' ∉ before) (hcaret : '^' ∉ before)
    (n : Nat) :
    margin (rows ++ '\n' :: (before ++ List.replicate (max 1 n) '^') ++ ['\n']) = before := by
  obtain ⟨k, hk⟩ : ∃ k, max 1 n = k + 1 := ⟨max 1 n - 1, by omega⟩
  have hrow : ∀ c ∈ (before ++ List.replicate (k + 1) '^').reverse, decide (c ≠ '\n') = true := by
    intro c hc
    rw [List.mem_reverse, List.mem_append] at hc
    refine decide_eq_true ?_
    rintro rfl
    exact hc.elim hfeed fun h => by simp at h
  have hbefore : ∀ c ∈ before, decide (c ≠ '^') = true :=
    fun c hc => decide_eq_true fun heq => hcaret (heq ▸ hc)
  rw [margin, hk, List.dropLast_concat, List.rtakeWhile, List.reverse_append, List.reverse_cons,
    List.append_assoc, List.takeWhile_append_of_pos hrow, List.singleton_append,
    List.takeWhile_cons_of_neg (by decide), List.append_nil, List.reverse_reverse,
    List.takeWhile_append_of_pos hbefore, List.replicate_succ,
    List.takeWhile_cons_of_neg (by decide), List.append_nil]

/-- In an aligned excerpt the column is behind what precedes the start. -/
theorem Aligned.exists_lead {path : String} {line column : Nat} (h : d.Aligned path text)
    (hplace : (ofSource (.ofString text)).place (.ofString text) d.span.start =
      .ok (line, column)) :
    ∃ lead : List Char, lead.length < column ∧ (Source.ofString text).slice?
      (d.shown (.ofString text)).start d.span.start = some (String.ofList lead) := by
  obtain ⟨drawn, head, number, lead, tail, gutter, pad, hdrawn, hrows, -, -, hfeed, hlead, -, -,
    rfl, -, hgutter, hcaret, hpads⟩ := h
  obtain ⟨column', hplace', hcolumn, -⟩ := Lines.place_ok (.ofString text) d.span.start
  obtain ⟨rfl, rfl⟩ := Prod.mk.inj (Except.ok.inj (hplace'.symm.trans hplace))
  generalize (ofSource (.ofString text)).lineOf d.span.start = line at *
  obtain ⟨blanks, hblanks, hdrawnPads⟩ :=
    padding_pads ((ofSource (.ofString text)).text (.ofString text) line) hcolumn
  have heq := excerpt_eq path hplace (caretCount_eq _ _ _ hcolumn) hblanks
  obtain rfl := Except.ok.inj (hdrawn.symm.trans heq)
  obtain ⟨_, -, hrows'⟩ := toList_drawn d path line column'
    ((ofSource (.ofString text)).text (.ofString text) line) blanks _
  have hfeed' := hdrawnPads.not_mem (show '\n' ≠ '\t' by decide) (by decide)
  have hcaret' := hdrawnPads.not_mem (show '^' ≠ '\t' by decide) (by decide)
  have hmargin := congrArg margin (hrows.symm.trans hrows')
  rw [margin_eq hfeed hcaret, margin_eq (by simp [hfeed']) (by simp [hcaret'])] at hmargin
  have hlength := congrArg List.length hmargin
  have hpad := hpads.length_eq
  have hblank := hdrawnPads.length_eq
  rw [List.length_append, List.length_append, List.length_append, List.length_replicate,
    hgutter, List.length_append, String.length_toList] at hlength
  rw [List.length_take] at hblank
  exact ⟨lead, by omega, hlead⟩

/-- In a line of more letters than columns count, the column of the letter behind so many is cut,
and its caret stands too far to the left. -/
theorem excerpt_misaligned : ¬ ∀ (d : Diagnostic) (path text : String),
    (⟨d.span.start⟩ : String.Pos.Raw).IsValid text →
    (⟨d.span.stop⟩ : String.Pos.Raw).IsValid text → d.span.start ≤ d.span.stop →
    d.span.start < (d.shown (.ofString text)).stop → d.span.stop < Span.limit →
    d.Aligned path text := by
  intro hall
  obtain ⟨n, hn⟩ : ∃ n, n = Lines.top := ⟨_, rfl⟩
  have hlimit : Lines.top + 1 = Span.limit := by decide
  obtain ⟨hvalid, hplace⟩ := Lines.place_replicate 1 (Nat.le_of_eq hn)
  obtain ⟨text, htext⟩ : ∃ text, text = String.ofList (List.replicate (n + 1) 'a') := ⟨_, rfl⟩
  rw [← htext] at hvalid hplace
  have hsplit : text.toList = [] ++ List.replicate n 'a' ++ ['a'] := by
    rw [htext, String.toList_ofList, List.replicate_succ', List.nil_append]
  have hnone : '\n' ∉ List.replicate n 'a' ++ ['a'] := by simp [List.mem_replicate]
  have hlength : (encoded ([] ++ List.replicate n 'a')).length = n := by
    rw [List.nil_append, Lines.length_encoded_replicate (by decide)]
  let d : Diagnostic := ⟨.unexpectedToken, ⟨n, n⟩, ""⟩
  have hshown : d.shown (.ofString text) = ⟨0, n + 1⟩ := by
    obtain ⟨_, hplace', -⟩ := Lines.place_ok (.ofString text) n
    have hline := congrArg Prod.fst (Except.ok.inj (hplace'.symm.trans hplace))
    have hbody : text.toList = [] ++ (List.replicate n 'a' ++ ['a']) ++ [] := by simp [hsplit]
    have hwhole := Lines.text_eq hbody (by simp) hnone (by simp) (Nat.zero_le _)
      (fun h => absurd rfl h)
    rw [List.rdropWhile_concat_neg _ _ _ (by decide)] at hwhole
    have hshown := shown_eq (d := d) (hsplit.trans (List.append_assoc [] _ _)) (by simp)
      (Nat.zero_le _) hline hwhole
    rw [hshown, ← List.append_assoc, encoded_append, List.length_append, hlength]
    rfl
  obtain ⟨lead, hlt, hlead⟩ := (hall d "" text hvalid hvalid (Nat.le_refl n)
    (by rw [hshown]; exact Nat.lt_succ_self n) (by show n < _; omega)).exists_lead hplace
  rw [hshown] at hlead
  have hslice := Source.slice?_encoded hsplit
  rw [hlength] at hslice
  obtain rfl := String.ofList_injective (Option.some.inj (hlead.symm.trans hslice))
  rw [List.length_replicate] at hlt
  have hle := Lines.clamp_le (1 + n)
  omega

end Diagnostic

end MicroCompiler
