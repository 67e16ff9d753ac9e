import Mathlib.Data.List.DropRight
import Mathlib.Data.Prod.Lex
import Mathlib.Order.Monotone.Basic
import MicroCompiler.Proofs.Results
import MicroCompiler.Proofs.Scanner.Characters
import MicroCompiler.Source.Lines

/-! Lines and columns. The starts of the lines are bytes behind line feeds, so the line of an offset
counts the line feeds before it; in a text these are characters, and the column counts those behind
the last of them. Reading a character moves a place on, to the next line or to the next column. Only
at the largest offset, or behind it, numbers can be cut. Main statement: `place_exact`. -/

namespace MicroCompiler.Lines

/-! ### Starts of lines -/

section

variable {src : Source} {bytes above below : List UInt8} {offset start : Nat}

theorem startsAfter_bounds (h : start ∈ startsAfter offset bytes) :
    offset < start ∧ start ≤ offset + bytes.length := by
  induction bytes generalizing offset with
  | nil => simp [startsAfter] at h
  | cons b rest ih =>
    rw [startsAfter] at h
    split at h
    next =>
      rcases List.mem_cons.mp h with rfl | h
      · simp
      · have hrest := ih h
        simp only [List.length_cons]
        omega
    next =>
      have hrest := ih h
      simp only [List.length_cons]
      omega

theorem startsAfter_append (offset : Nat) (xs ys : List UInt8) :
    startsAfter offset (xs ++ ys) = startsAfter offset xs ++
    startsAfter (offset + xs.length) ys := by
  induction xs generalizing offset with
  | nil => rfl
  | cons b xs ih =>
    have hshift : offset + 1 + xs.length = offset + (b :: xs).length := by
      rw [List.length_cons]; omega
    rw [List.cons_append, startsAfter, startsAfter, ih, hshift]
    split <;> rfl

theorem length_startsAfter (offset : Nat) (bytes : List UInt8) :
    (startsAfter offset bytes).length = bytes.count lineFeed := by
  induction bytes generalizing offset with
  | nil => rfl
  | cons b rest ih =>
    rw [startsAfter, List.count_cons]
    split
    next hb => simp [hb, ih]
    next hb => simp [hb, ih]

theorem count_eq (src : Source) :
    (ofSource src).starts.length = 1 + src.bytes.count lineFeed := by
  rw [ofSource, List.length_cons, List.length_map, length_startsAfter, Nat.add_comm]

theorem length_takeWhile_startsAfter (bytes : List UInt8) (offset : Nat) :
    ((startsAfter 0 bytes).takeWhile (· ≤ offset)).length = (bytes.take offset).count lineFeed := by
  have hbefore : ∀ s ∈ startsAfter 0 (bytes.take offset), decide (s ≤ offset) = true := by
    intro s hs
    have hle := (startsAfter_bounds hs).2
    rw [List.length_take] at hle
    exact decide_eq_true (by omega)
  have hbehind : ∀ s ∈ startsAfter (0 + (bytes.take offset).length) (bytes.drop offset),
      ¬ s ≤ offset := by
    intro s hs
    obtain ⟨hlt, hle⟩ := startsAfter_bounds hs
    rw [List.length_take, List.length_drop] at *
    omega
  have hnone : (startsAfter (0 + (bytes.take offset).length) (bytes.drop offset)).takeWhile
      (· ≤ offset) = [] := by
    rw [List.takeWhile_eq_nil_iff]
    intro hpos hfirst
    exact hbehind _ (List.get_mem _ _) (of_decide_eq_true hfirst)
  have hsplit := startsAfter_append 0 (bytes.take offset) (bytes.drop offset)
  rw [List.take_append_drop] at hsplit
  rw [hsplit, List.takeWhile_append_of_pos hbefore, hnone, List.append_nil, length_startsAfter]

/-! ### Numbers of lines -/

theorem clamp_of_le {n : Nat} (h : n ≤ top) : clamp n = n := Nat.min_eq_left h

theorem clamp_le (n : Nat) : clamp n ≤ top := Nat.min_le_right _ _

theorem clamp_lt_limit (n : Nat) : clamp n < Span.limit :=
  Nat.lt_of_le_of_lt (clamp_le n) (by decide)

/-- The line of an offset is found by counting line feeds. -/
theorem lineOf_eq (src : Source) (h : offset < top) :
    (ofSource src).lineOf offset = 1 + (src.bytes.take offset).count lineFeed := by
  have htest : ((fun s => decide (s ≤ offset)) ∘ clamp) = fun s => decide (s ≤ offset) := by
    funext s
    apply decide_eq_decide.mpr
    unfold clamp
    omega
  have hcount := List.count_le_length (a := lineFeed) (l := src.bytes.take offset)
  rw [List.length_take] at hcount
  rw [lineOf, ofSource, List.takeWhile_cons_of_pos (by simp), List.length_cons, List.takeWhile_map,
    List.length_map, htest, length_takeWhile_startsAfter, clamp_of_le (by omega)]
  omega

/-- At the largest offset all lines have started. -/
theorem lineOf_top (src : Source) :
    (ofSource src).lineOf top = clamp (1 + src.bytes.count lineFeed) := by
  have hall : (ofSource src).starts.takeWhile (· ≤ top) = (ofSource src).starts := by
    rw [List.takeWhile_eq_self_iff]
    intro s hs
    rcases List.mem_cons.mp hs with rfl | hs
    · simp
    · obtain ⟨n, -, rfl⟩ := List.mem_map.mp hs
      exact decide_eq_true (clamp_le n)
  rw [lineOf, hall, count_eq, Nat.max_eq_right (by omega)]

/-- A line starts behind bytes that end with a line feed, and at the front. -/
theorem start?_eq (h : src.bytes = above ++ below) (hends : ∀ b ∈ above.getLast?, b = lineFeed) :
    (ofSource src).start? (1 + above.count lineFeed) = some (clamp above.length) := by
  rw [start?, if_neg (by omega), Nat.add_sub_cancel_left, ofSource, h, startsAfter_append]
  rcases List.eq_nil_or_concat' above with rfl | ⟨before, b, rfl⟩
  · rfl
  · obtain rfl : b = lineFeed := hends b (by simp)
    have hlast : startsAfter 0 (before ++ [lineFeed]) =
        startsAfter 0 before ++ [(before ++ [lineFeed]).length] := by
      rw [startsAfter_append, startsAfter, if_pos rfl, startsAfter, Nat.zero_add,
        List.length_append]
      rfl
    rw [List.count_append, List.count_singleton_self, List.getElem?_cons_succ, List.getElem?_map,
      hlast, List.append_assoc, ← length_startsAfter 0 before, List.getElem?_append_right
      le_rfl, Nat.sub_self]
    rfl

end

/-! ### Pieces of lines -/

section

variable {α : Type} [DecidableEq α]

/-- What stands before a place ends with a piece of a line. -/
theorem exists_lead (feed : α) (l : List α) :
    ∃ above lead, l = above ++ lead ∧ (∀ b ∈ above.getLast?, b = feed) ∧ feed ∉ lead := by
  refine ⟨l.rdropWhile (· ≠ feed), l.rtakeWhile (· ≠ feed), List.rdropWhile_append_rtakeWhile.symm,
    ?_, ?_⟩
  · intro b hb
    obtain ⟨hne, rfl⟩ := List.mem_getLast?_eq_getLast hb
    simpa using List.rdropWhile_last_not _ l hne
  · intro hmem
    simpa using List.mem_rtakeWhile_imp hmem

/-- What stands behind a place begins with a piece of a line. -/
theorem exists_tail (feed : α) (l : List α) :
    ∃ tail below, l = tail ++ below ∧ feed ∉ tail ∧ ∀ b ∈ below.head?, b = feed := by
  refine ⟨l.takeWhile (· ≠ feed), l.dropWhile (· ≠ feed), List.takeWhile_append_dropWhile.symm,
    ?_, ?_⟩
  · intro hmem
    simpa using List.mem_takeWhile_imp hmem
  · intro b hb
    have hnot := List.head?_dropWhile_not (· ≠ feed) l
    rw [hb] at hnot
    simpa using hnot

end

/-! ### Every offset has a place -/

theorem starts_le {src : Source} {start : Nat} (h : start ∈ (ofSource src).starts) :
    start ≤ src.size := by
  rcases List.mem_cons.mp h with rfl | h
  · exact Nat.zero_le _
  · obtain ⟨n, hn, rfl⟩ := List.mem_map.mp h
    have hle := (startsAfter_bounds hn).2
    rw [Nat.zero_add] at hle
    exact Nat.le_trans (Nat.min_le_left _ _) hle

/-- The line of an offset is there, and starts neither behind the offset nor behind the source. -/
theorem exists_start (src : Source) (offset : Nat) :
    1 ≤ (ofSource src).lineOf offset ∧
      ∃ start, (ofSource src).starts[(ofSource src).lineOf offset - 1]? = some start ∧
        start ≤ min offset src.size := by
  have hfirst : 1 ≤ ((ofSource src).starts.takeWhile (· ≤ offset)).length := by
    rw [ofSource, List.takeWhile_cons_of_pos (by simp), List.length_cons]
    omega
  have hline : 1 ≤ (ofSource src).lineOf offset ∧ (ofSource src).lineOf offset - 1 <
      ((ofSource src).starts.takeWhile (· ≤ offset)).length := by
    have htop : 1 ≤ top := by decide
    rw [lineOf, clamp]
    omega
  have hmem := List.getElem_mem hline.2
  have hbefore := by simpa using List.mem_takeWhile_imp hmem
  refine ⟨hline.1, _, ?_, Nat.le_min.mpr ⟨hbefore, ?_⟩⟩
  · rw [List.getElem?_eq_getElem (Nat.lt_of_lt_of_le hline.2 (List.takeWhile_prefix _).length_le),
      (List.takeWhile_prefix _).getElem hline.2]
  · exact starts_le ((List.takeWhile_prefix _).subset hmem)

theorem place_ok (src : Source) (offset : Nat) :
    ∃ column, (ofSource src).place src offset = .ok ((ofSource src).lineOf offset, column) ∧
      1 ≤ column ∧ column < Span.limit := by
  obtain ⟨hline, start, hstart, hle⟩ := exists_start src offset
  have hfetch : BoundsError.fetch (ofSource src).starts.toArray ((ofSource src).lineOf offset - 1) =
      .ok start := fetch_eq_ok.mpr (by simpa using hstart)
  refine ⟨clamp (((src.slice? start (min offset src.size)).map String.length).getD
    (min offset src.size - start) + 1), ?_, ?_, clamp_lt_limit _⟩
  · simp only [place, minus_of_le hline, hfetch, minus_of_le hle, bind, Except.bind,
      pure, Except.pure]
  · have htop : 1 ≤ top := by decide
    exact Nat.le_min.mpr ⟨Nat.le_add_left _ _, htop⟩

/-! ### Places of characters -/

section

variable {text : String} {before after above lead rest : List Char}

theorem count_encoded (chars : List Char) : (encoded chars).count lineFeed = chars.count '\n' := by
  induction chars with
  | nil => rfl
  | cons c chars ih =>
    rw [encoded_cons, List.count_append, ih, List.count_cons, Nat.add_comm]
    congr 1
    by_cases hc : c = '\n'
    · subst hc
      decide
    · have hnot : lineFeed ∉ String.utf8EncodeChar c := fun hmem =>
        hc (eq_of_mem_utf8EncodeChar hmem (by decide) (by decide))
      rw [List.count_eq_zero_of_not_mem hnot, if_neg (by simpa using hc)]

theorem getLast?_encoded (h : ∀ c ∈ above.getLast?, c = '\n') :
    ∀ b ∈ (encoded above).getLast?, b = lineFeed := by
  rcases List.eq_nil_or_concat' above with rfl | ⟨before, c, rfl⟩
  · simp
  · obtain rfl : c = '\n' := h c (by simp)
    have hbyte : encoded ['\n'] = [lineFeed] := by decide
    rw [encoded_append, hbyte]
    simp

theorem start?_encoded (h : text.toList = above ++ rest) (hends : ∀ c ∈ above.getLast?, c = '\n') :
    (ofSource (.ofString text)).start? (1 + above.count '\n') =
      some (clamp (encoded above).length) := by
  have hbytes : (Source.ofString text).bytes = encoded above ++ encoded rest := by
    rw [Source.bytes_ofString, h, encoded_append]
  rw [← count_encoded, start?_eq hbytes (getLast?_encoded hends)]

theorem lineOf_encoded (h : text.toList = above ++ lead ++ rest) (hlead : '\n' ∉ lead)
    (hlt : (encoded (above ++ lead)).length < top) :
    (ofSource (.ofString text)).lineOf (encoded (above ++ lead)).length = 1 + above.count '\n' := by
  rw [lineOf_eq _ hlt, Source.bytes_ofString, h, encoded_append (above ++ lead), List.take_left,
    count_encoded, List.count_append, List.count_eq_zero_of_not_mem hlead, Nat.add_zero]

/-- A place in a text, from the lines above it and the characters before it in its line. -/
theorem place_eq (h : text.toList = above ++ lead ++ rest) (hends : ∀ c ∈ above.getLast?, c = '\n')
    (hle : (encoded (above ++ lead)).length ≤ top)
    (hline : (ofSource (.ofString text)).lineOf (encoded (above ++ lead)).length =
      1 + above.count '\n') :
    (ofSource (.ofString text)).place (.ofString text) (encoded (above ++ lead)).length =
      .ok (1 + above.count '\n', clamp (1 + lead.length)) := by
  have hsize : (encoded above).length ≤ (encoded (above ++ lead)).length := by
    rw [encoded_append, List.length_append]
    omega
  have hstart := start?_encoded (h.trans (List.append_assoc above lead rest)) hends
  rw [clamp_of_le (Nat.le_trans hsize hle), start?, if_neg (by omega)] at hstart
  have hfetch := fetch_eq_ok.mpr (by simpa using hstart :
    (ofSource (.ofString text)).starts.toArray[1 + above.count '\n' - 1]? = _)
  have hstop : min (encoded (above ++ lead)).length (Source.ofString text).size =
      (encoded (above ++ lead)).length := by
    rw [Source.size_ofString, h, encoded_append (above ++ lead), List.length_append]
    omega
  simp only [place, hline, minus_of_le (Nat.le_add_right 1 _), hfetch, hstop, minus_of_le hsize,
    bind, Except.bind, pure, Except.pure, Source.slice?_encoded h, Option.map_some,
    Option.getD_some, String.length_ofList]
  rw [Nat.add_comm lead.length]

/-- Below the largest offset nothing is cut. -/
theorem place_eq_of_lt (h : text.toList = above ++ lead ++ rest)
    (hends : ∀ c ∈ above.getLast?, c = '\n') (hlead : '\n' ∉ lead)
    (hlt : (encoded (above ++ lead)).length < top) :
    (ofSource (.ofString text)).place (.ofString text) (encoded (above ++ lead)).length =
      .ok (1 + above.count '\n', 1 + lead.length) := by
  have hcolumn := length_le_encoded (above ++ lead)
  rw [List.length_append] at hcolumn
  rw [place_eq h hends (Nat.le_of_lt hlt) (lineOf_encoded h hlead hlt), clamp_of_le (by omega)]

end

/-! ### Moving on -/

/-- The place behind one more character. -/
def advance (place : Nat × Nat) (c : Char) : Nat × Nat :=
  if c = '\n' then (place.1 + 1, 1) else (place.1, place.2 + 1)

theorem lt_advance (place : Nat × Nat) (c : Char) : toLex place < toLex (advance place c) := by
  rw [Prod.Lex.toLex_lt_toLex, advance]
  split
  · exact .inl (Nat.lt_succ_self _)
  · exact .inr ⟨rfl, Nat.lt_succ_self _⟩

theorem lt_foldl_advance (place : Nat × Nat) (c : Char) (more : List Char) :
    toLex place < toLex ((c :: more).foldl advance place) := by
  induction more generalizing place c with
  | nil => exact lt_advance place c
  | cons d more ih => exact (lt_advance place c).trans (ih (advance place c) d)

theorem foldl_advance_line (place : Nat × Nat) (chars : List Char) :
    (chars.foldl advance place).1 = place.1 + chars.count '\n' := by
  induction chars generalizing place with
  | nil => rfl
  | cons c chars ih =>
    rw [List.foldl_cons, ih, advance, List.count_cons]
    by_cases hc : c = '\n'
    · simp [hc]
      omega
    · simp [hc]

theorem foldl_advance_lead {lead : List Char} (h : '\n' ∉ lead) (place : Nat × Nat) :
    lead.foldl advance place = (place.1, place.2 + lead.length) := by
  induction lead generalizing place with
  | nil => rfl
  | cons c lead ih =>
    rw [List.mem_cons, not_or] at h
    rw [List.foldl_cons, ih h.2, advance, if_neg (Ne.symm h.1), List.length_cons]
    simp only [Prod.mk.injEq, true_and]
    omega

theorem foldl_advance_above {above : List Char} (h : ∀ c ∈ above.getLast?, c = '\n') :
    (above.foldl advance (1, 1)).2 = 1 := by
  rcases List.eq_nil_or_concat' above with rfl | ⟨before, c, rfl⟩
  · rfl
  · obtain rfl : c = '\n' := h c (by simp)
    rw [List.foldl_append, List.foldl_cons, List.foldl_nil, advance, if_pos rfl]

/-- A place is reached by reading the characters before it. -/
theorem place_eq_foldl {text : String} {before after : List Char}
    (h : text.toList = before ++ after) (hlt : (encoded before).length < top) :
    (ofSource (.ofString text)).place (.ofString text) (encoded before).length =
      .ok (before.foldl advance (1, 1)) := by
  obtain ⟨above, lead, rfl, hends, hlead⟩ := exists_lead '\n' before
  rw [place_eq_of_lt h hends hlead hlt, List.foldl_append, foldl_advance_lead hlead,
    foldl_advance_line, foldl_advance_above hends]

/-- Of two offsets between characters, the later one has more characters before it. -/
theorem exists_more_of_encoded_lt {before after before' after' : List Char}
    (h : before ++ after = before' ++ after')
    (hlt : (encoded before).length < (encoded before').length) :
    ∃ c more, before' = before ++ c :: more := by
  obtain ⟨more, rfl⟩ := exists_more_of_encoded_le h (Nat.le_of_lt hlt)
  cases more with
  | nil => simp at hlt
  | cons c more => exact ⟨c, more, rfl⟩

theorem place_lt_place {text : String} {i j : Nat} (hi : (⟨i⟩ : String.Pos.Raw).IsValid text)
    (hj : (⟨j⟩ : String.Pos.Raw).IsValid text) (hlt : i < j) (htop : j < top) :
    ∃ p q, (ofSource (.ofString text)).place (.ofString text) i = .ok p ∧
      (ofSource (.ofString text)).place (.ofString text) j = .ok q ∧ toLex p < toLex q := by
  obtain ⟨before, after, hbefore, rfl⟩ := Source.isValid_iff_encoded.mp hi
  obtain ⟨before', after', hbefore', rfl⟩ := Source.isValid_iff_encoded.mp hj
  refine ⟨_, _, place_eq_foldl hbefore (Nat.lt_trans hlt htop), place_eq_foldl hbefore' htop, ?_⟩
  obtain ⟨c, more, rfl⟩ := exists_more_of_encoded_lt (hbefore.symm.trans hbefore') hlt
  rw [List.foldl_append]
  exact lt_foldl_advance _ c more

/-! ### Texts of lines -/

/-- The characters that are left out at the end of a line. -/
def isTerminator (c : Char) : Bool := c == '\n' || c == '\r'

/-- What stands before a character that stays, stays too. -/
theorem rdropWhile_append_cons {p : Char → Bool} {c : Char} (h : p c = false)
    (lead tail : List Char) :
    (lead ++ c :: tail).rdropWhile p = lead ++ c :: tail.rdropWhile p := by
  rw [List.rdropWhile, List.rdropWhile, List.reverse_append, List.reverse_cons, List.append_assoc,
    List.singleton_append, List.dropWhile_append]
  split
  next hnone =>
    rw [List.dropWhile_cons_of_neg (by simp [h]), List.isEmpty_iff.mp hnone]
    simp
  next => simp

section

variable {text : String} {above body below : List Char}

/-- The text of a line is the piece from its start to its end, without the terminators there. -/
theorem text_of_stop {piece after : List Char} (h : text.toList = above ++ piece ++ after)
    (hends : ∀ c ∈ above.getLast?, c = '\n') (hle : (encoded above).length ≤ top)
    (hstop : ((ofSource (.ofString text)).start? (1 + above.count '\n' + 1)).getD
      (Source.ofString text).size = (encoded (above ++ piece)).length) :
    (ofSource (.ofString text)).text (.ofString text) (1 + above.count '\n') =
      String.ofList (piece.rdropWhile isTerminator) := by
  have hstart := start?_encoded (h.trans (List.append_assoc above piece after)) hends
  rw [clamp_of_le hle] at hstart
  simp only [Lines.text, hstart, hstop, Source.slice?_encoded h, Option.getD_some,
    String.toList_ofList]
  rfl

theorem start?_last (h : text.toList = above ++ body) (hbody : '\n' ∉ body) :
    (ofSource (.ofString text)).start? (1 + above.count '\n' + 1) = none := by
  rw [start?, if_neg (by omega), List.getElem?_eq_none]
  rw [count_eq, Source.bytes_ofString, h, count_encoded, List.count_append,
    List.count_eq_zero_of_not_mem hbody]
  omega

theorem start?_next (h : text.toList = above ++ body ++ '\n' :: below) (hbody : '\n' ∉ body) :
    (ofSource (.ofString text)).start? (1 + above.count '\n' + 1) =
      some (clamp ((encoded (above ++ body)).length + 1)) := by
  have hsplit : text.toList = above ++ body ++ ['\n'] ++ below := by simp [h]
  have hbyte : (encoded ['\n']).length = 1 := by decide
  have hnext := start?_encoded hsplit (by simp)
  rw [List.count_append, List.count_append, List.count_eq_zero_of_not_mem hbody,
    List.count_singleton_self, Nat.add_zero, ← Nat.add_assoc, encoded_append _ ['\n'],
    List.length_append, hbyte] at hnext
  exact hnext

/-- The text of a line is the line without the terminators at its end, if the next line starts where
an offset can be, or there is none. -/
theorem text_eq (h : text.toList = above ++ body ++ below) (hends : ∀ c ∈ above.getLast?, c = '\n')
    (hbody : '\n' ∉ body) (hbelow : ∀ c ∈ below.head?, c = '\n')
    (hle : (encoded above).length ≤ top)
    (hreach : below ≠ [] → (encoded (above ++ body)).length < top) :
    (ofSource (.ofString text)).text (.ofString text) (1 + above.count '\n') =
      String.ofList (body.rdropWhile isTerminator) := by
  cases below with
  | nil =>
    rw [List.append_nil] at h
    have hwhole : text.toList = above ++ body ++ [] := by rw [h, List.append_nil]
    apply text_of_stop hwhole hends hle
    rw [start?_last h hbody, Option.getD_none, Source.size_ofString, h]
  | cons c below =>
    obtain rfl : c = '\n' := hbelow c rfl
    have hsplit : text.toList = above ++ (body ++ ['\n']) ++ below := by simp [h]
    have hlt := hreach (by simp)
    have hbyte : (encoded ['\n']).length = 1 := by decide
    rw [text_of_stop hsplit hends hle, List.rdropWhile_concat_pos isTerminator body '\n' rfl]
    rw [start?_next h hbody, Option.getD_some, clamp_of_le hlt, ← List.append_assoc,
      encoded_append _ ['\n'], List.length_append, hbyte]

/-- The text of a line is a piece of that line from its start on. -/
theorem text_prefix (h : text.toList = above ++ body ++ below)
    (hends : ∀ c ∈ above.getLast?, c = '\n') (hbody : '\n' ∉ body)
    (hbelow : ∀ c ∈ below.head?, c = '\n') (hle : (encoded above).length ≤ top) :
    ∃ chars rest, body = chars ++ rest ∧
      (ofSource (.ofString text)).text (.ofString text) (1 + above.count '\n') =
        String.ofList chars := by
  by_cases hreach : below ≠ [] → (encoded (above ++ body)).length < top
  · exact ⟨_, _, List.rdropWhile_append_rtakeWhile.symm, text_eq h hends hbody hbelow hle hreach⟩
  · -- The line ends behind the largest offset, so what is shown stops there, if it is no part of a
    -- character.
    obtain ⟨hne, hlong⟩ : below ≠ [] ∧ top ≤ (encoded (above ++ body)).length := by
      simpa using hreach
    obtain ⟨c, below, rfl⟩ := List.exists_cons_of_ne_nil hne
    obtain rfl : c = '\n' := hbelow c rfl
    have hstart := start?_encoded (h.trans (List.append_assoc above body _)) hends
    have hstop := start?_next h hbody
    rw [clamp_of_le hle] at hstart
    rw [clamp, Nat.min_eq_right (by omega)] at hstop
    cases hpiece : (Source.ofString text).slice? (encoded above).length top with
    | none => exact ⟨[], body, rfl, by simp [Lines.text, hstart, hstop, hpiece]⟩
    | some piece =>
      obtain ⟨after, hafter, htop⟩ :=
        Source.exists_of_slice? (h.trans (List.append_assoc above body _)) hpiece
      have hsame : above ++ piece.toList ++ after = above ++ body ++ '\n' :: below := by
        rw [List.append_assoc, ← hafter, ← List.append_assoc]
      obtain ⟨more, hmore⟩ := exists_more_of_encoded_le hsame (by rw [← htop]; exact hlong)
      obtain rfl : body = piece.toList ++ more := by simpa using hmore
      refine ⟨piece.toList.rdropWhile isTerminator, piece.toList.rtakeWhile isTerminator ++
        more, ?_, ?_⟩
      · rw [← List.append_assoc, List.rdropWhile_append_rtakeWhile]
      · simp only [Lines.text, hstart, hstop, hpiece, Option.getD_some]
        rfl

/-- A character that is no terminator is shown at its column. -/
theorem text_getElem? {lead tail : List Char} {c : Char}
    (h : text.toList = above ++ lead ++ c :: tail)
    (hends : ∀ c ∈ above.getLast?, c = '\n') (hlead : '\n' ∉ lead) (hc : isTerminator c = false)
    (hle : (encoded above).length ≤ top)
    (hreach : ∀ middle below, c :: tail = middle ++ '\n' :: below → '\n' ∉ middle →
      (encoded (above ++ lead ++ middle)).length < top) :
    ((ofSource (.ofString text)).text (.ofString text) (1 +
      above.count '\n')).toList[lead.length]? = some c := by
  obtain ⟨middle, below, rfl, hmiddle, hbelow⟩ := exists_tail '\n' tail
  have hne : '\n' ≠ c := by
    rintro rfl
    cases hc
  have hbody : '\n' ∉ lead ++ c :: middle := by simp [hlead, hmiddle, hne]
  have hend : below ≠ [] → (encoded (above ++ (lead ++ c :: middle))).length < top := by
    intro hbelow'
    obtain ⟨d, below, rfl⟩ := List.exists_cons_of_ne_nil hbelow'
    obtain rfl : d = '\n' := hbelow d rfl
    rw [← List.append_assoc]
    exact hreach (c :: middle) below (by simp) (by simp [hmiddle, hne])
  rw [text_eq (by simp [h]) hends hbody hbelow hle hend, String.toList_ofList,
    rdropWhile_append_cons hc]
  simp

end

/-- Lines count the line feeds before an offset. Between two characters, the place of an offset has
that line and the column behind the characters that follow the last line feed before it; a character
that does not end lines stands at this column of the text of the line, if its line ends where an
offset can be or is the last. Later offsets between characters have later places, so no two have the
same. All that holds below the largest 32-bit number. At that offset the line is cut to it, and so
is the column at the end of a source of that size. Any offset at all has a place, and its line and
column are 32-bit numbers. -/
theorem place_exact (text : String) :
    let src := Source.ofString text
    let lines := ofSource src
    (∀ offset < top, lines.lineOf offset = 1 + (src.bytes.take offset).count lineFeed) ∧
    lines.lineOf top = clamp (1 + src.bytes.count lineFeed) ∧
    (∀ offset < top, (⟨offset⟩ : String.Pos.Raw).IsValid text →
      ∃ above lead rest, text.toList = above ++ lead ++ rest ∧
        offset = (encoded (above ++ lead)).length ∧
        (∀ c ∈ above.getLast?, c = '\n') ∧ '\n' ∉ lead ∧
        lines.place src offset = .ok (lines.lineOf offset, 1 + lead.length) ∧
        ((∀ tail below, rest = tail ++ '\n' :: below → '\n' ∉ tail →
            (encoded (above ++ lead ++ tail)).length < top) →
          ∀ c ∈ rest.head?, c ≠ '\r' → c ≠ '\n' →
            (lines.text src (lines.lineOf offset)).toList[lead.length]? = some c)) ∧
    (src.size = top → src.bytes.count lineFeed < top →
      ∃ above lead, text.toList = above ++ lead ∧ (∀ c ∈ above.getLast?, c = '\n') ∧ '\n' ∉ lead ∧
        lines.place src top = .ok (1 + above.count '\n', clamp (1 + lead.length))) ∧
    Set.InjOn (lines.place src) {offset | (⟨offset⟩ : String.Pos.Raw).IsValid text ∧ offset < top} ∧
    (∀ i j, (⟨i⟩ : String.Pos.Raw).IsValid text → (⟨j⟩ : String.Pos.Raw).IsValid text → i < j →
      j < top → ∃ p q, lines.place src i = .ok p ∧ lines.place src j = .ok q ∧ toLex p < toLex q) ∧
    ∀ offset, ∃ column, lines.place src offset = .ok (lines.lineOf offset, column) ∧
      lines.lineOf offset < Span.limit ∧ column < Span.limit := by
  intro src lines
  refine ⟨fun offset => lineOf_eq src, lineOf_top src, ?_, ?_, ?_, ?_, ?_⟩
  · intro offset hlt hvalid
    obtain ⟨before, rest, hsplit, rfl⟩ := Source.isValid_iff_encoded.mp hvalid
    obtain ⟨above, lead, rfl, hends, hlead⟩ := exists_lead '\n' before
    have hline : lines.lineOf (encoded (above ++ lead)).length = 1 + above.count '\n' :=
      lineOf_encoded hsplit hlead hlt
    have hle : (encoded above).length ≤ top := by
      rw [encoded_append, List.length_append] at hlt
      omega
    refine ⟨above, lead, rest, hsplit, rfl, hends, hlead, ?_, ?_⟩
    · rw [hline]
      exact place_eq_of_lt hsplit hends hlead hlt
    · intro hreach c hc hreturn hfeed
      obtain ⟨tail, rfl⟩ := List.head?_eq_some_iff.mp hc
      rw [hline]
      exact text_getElem? hsplit hends hlead (by simp [isTerminator, hreturn, hfeed]) hle hreach
  · intro hsize hcount
    obtain ⟨above, lead, hsplit, hends, hlead⟩ := exists_lead '\n' text.toList
    have hall : (encoded (above ++ lead)).length = top := by
      rw [← hsplit, ← Source.size_ofString, hsize]
    have hfeeds : src.bytes.count lineFeed = above.count '\n' := by
      rw [Source.bytes_ofString, count_encoded, hsplit, List.count_append,
        List.count_eq_zero_of_not_mem hlead, Nat.add_zero]
    refine ⟨above, lead, hsplit, hends, hlead, ?_⟩
    rw [← hall]
    refine place_eq (by rw [hsplit, List.append_nil]) hends (Nat.le_of_eq hall) ?_
    rw [hall, lineOf_top, hfeeds, clamp_of_le (by omega)]
  · intro i hi j hj heq
    rcases Nat.lt_trichotomy i j with hlt | hij | hlt
    · obtain ⟨p, q, hp, hq, hpq⟩ := place_lt_place hi.1 hj.1 hlt hj.2
      obtain rfl : p = q := Except.ok.inj (hp.symm.trans (heq.trans hq))
      exact absurd hpq (lt_irrefl _)
    · exact hij
    · obtain ⟨p, q, hp, hq, hpq⟩ := place_lt_place hj.1 hi.1 hlt hi.2
      obtain rfl : p = q := Except.ok.inj (hp.symm.trans (heq.symm.trans hq))
      exact absurd hpq (lt_irrefl _)
  · exact fun i j hi hj => place_lt_place hi hj
  · intro offset
    obtain ⟨column, hplace, -, hlt⟩ := place_ok src offset
    exact ⟨column, hplace, clamp_lt_limit _, hlt⟩

/-- Two lines, the first of which ends with a carriage return and a line feed. -/
def indentedText : String := "é\r\n\tb\n"

theorem place_exact_indentedText :
    (⟨5⟩ : String.Pos.Raw).IsValid indentedText ∧
      (ofSource (.ofString indentedText)).place (.ofString indentedText) 5 = .ok (2, 2) ∧
      (∃ above lead rest, indentedText.toList = above ++ lead ++ rest ∧
        5 = (encoded (above ++ lead)).length ∧ '\n' ∉ lead ∧ lead.length = 1) ∧
      (∃ p q, (ofSource (.ofString indentedText)).place (.ofString indentedText) 4 = .ok p ∧
        (ofSource (.ofString indentedText)).place (.ofString indentedText) 5 = .ok q ∧
        toLex p < toLex q) ∧
      (ofSource (.ofString indentedText)).place (.ofString indentedText) 99 = .ok (3, 1) ∧
      (ofSource (.ofString indentedText)).place (.ofString indentedText) 1 = .ok (1, 2) := by
  have hbytes : (Source.ofString indentedText).bytes = [195, 169, 13, 10, 9, 98, 10] := by
    decide +kernel
  have htab : (⟨4⟩ : String.Pos.Raw).IsValid indentedText :=
    Source.isValid_of_ascii (b := 9) (by rw [hbytes]; rfl) (by decide)
  have hletter : (⟨5⟩ : String.Pos.Raw).IsValid indentedText :=
    Source.isValid_of_ascii (b := 98) (by rw [hbytes]; rfl) (by decide)
  obtain ⟨-, -, hplace, -, -, hmono, -⟩ := place_exact indentedText
  have hfive : (ofSource (.ofString indentedText)).place (.ofString indentedText) 5 =
      .ok (2, 2) := by
    decide +kernel
  obtain ⟨above, lead, rest, hsplit, hoffset, -, hlead, hcolumn, -⟩ := hplace 5 (by decide) hletter
  have hone : 2 = 1 + lead.length := congrArg Prod.snd (Except.ok.inj (hfive.symm.trans hcolumn))
  exact ⟨hletter, hfive, ⟨above, lead, rest, hsplit, hoffset, hlead, by omega⟩,
    hmono 4 5 htab hletter (by decide) (by decide), by decide +kernel, by decide +kernel⟩

/-! ### Numbers that are cut -/

theorem length_encoded_replicate {c : Char} (hc : c.utf8Size = 1) (n : Nat) :
    (encoded (List.replicate n c)).length = n := by
  induction n with
  | zero => rfl
  | succ n ih => rw [List.replicate_succ, length_encoded_cons, ih, hc, Nat.add_comm]

/-- In a text of one line a place is a column. -/
theorem place_replicate {n : Nat} (k : Nat) (hle : n ≤ top) :
    (⟨n⟩ : String.Pos.Raw).IsValid (String.ofList (List.replicate (n + k) 'a')) ∧
    (ofSource (.ofString (String.ofList (List.replicate (n + k) 'a')))).place
      (.ofString (String.ofList (List.replicate (n + k) 'a'))) n = .ok (1, clamp (1 + n)) := by
  have hsplit : (String.ofList (List.replicate (n + k) 'a')).toList =
      [] ++ List.replicate n 'a' ++ List.replicate k 'a' := by
    rw [String.toList_ofList, List.nil_append, List.replicate_append_replicate]
  have hnone : ∀ m, '\n' ∉ List.replicate m 'a' := fun m h => by
    simp [List.mem_replicate] at h
  have hlength : (encoded (List.replicate n 'a')).length = n :=
    length_encoded_replicate (by decide) n
  refine ⟨Source.isValid_iff_encoded.mpr ⟨_, _, hsplit, by rw [List.nil_append, hlength]⟩, ?_⟩
  have hline : (ofSource (.ofString (String.ofList (List.replicate (n + k) 'a')))).lineOf n =
      1 := by
    rcases Nat.lt_or_eq_of_le hle with hlt | rfl
    · have hline := lineOf_encoded hsplit (hnone n) (by rwa [List.nil_append, hlength])
      rwa [List.nil_append, hlength] at hline
    · rw [lineOf_top, Source.bytes_ofString, count_encoded, String.toList_ofList,
        List.count_eq_zero_of_not_mem (hnone _), clamp_of_le (by decide)]
  have hplace := place_eq hsplit (by simp) (by rwa [List.nil_append, hlength])
    (by rw [List.nil_append, hlength, hline]; rfl)
  rwa [List.nil_append, hlength, List.length_replicate] at hplace

/-- A source of as many line feeds as the largest 32-bit number has one line more than lines have
numbers, and in a source of as many letters the last two offsets have the same place. -/
theorem place_saturates :
    (¬ ∀ (text : String), ∀ offset < Span.limit, (ofSource (.ofString text)).lineOf offset =
      1 + ((Source.ofString text).bytes.take offset).count lineFeed) ∧
    ¬ ∀ text : String, Set.InjOn ((ofSource (.ofString text)).place (.ofString text))
      {offset | (⟨offset⟩ : String.Pos.Raw).IsValid text ∧ offset < Span.limit} := by
  have hlimit : top + 1 = Span.limit := by decide
  constructor
  · intro hall
    have hline := hall (String.ofList (List.replicate top '\n')) top (by omega)
    have hcount : (Source.ofString (String.ofList (List.replicate top '\n'))).bytes.count lineFeed =
        top := by
      rw [Source.bytes_ofString, count_encoded, String.toList_ofList, List.count_replicate_self]
    have hlength : (Source.ofString (String.ofList (List.replicate top '\n'))).bytes.length ≤
        top := by
      rw [Source.bytes_ofString, String.toList_ofList, length_encoded_replicate (by decide)]
    rw [lineOf_top, List.take_of_length_le hlength, hcount] at hline
    have hle := clamp_le (1 + top)
    omega
  · intro hall
    obtain ⟨hvalid, hplace⟩ := place_replicate 1 (Nat.sub_le top 1)
    obtain ⟨hvalid', hplace'⟩ := place_replicate 0 (Nat.le_refl top)
    have hsame : clamp (1 + (top - 1)) = clamp (1 + top) := by
      unfold clamp
      omega
    have hpred : top - 1 + 1 = top := Nat.sub_add_cancel (by decide)
    rw [hpred, hsame] at hplace
    rw [hpred] at hvalid
    have hequal := hall _ ⟨hvalid, by omega⟩ ⟨hvalid', by omega⟩ (hplace.trans hplace'.symm)
    omega

end MicroCompiler.Lines
