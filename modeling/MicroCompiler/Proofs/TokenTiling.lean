import MicroCompiler.Proofs.Grammar.Acceptance.Text
import MicroCompiler.Proofs.Layout.Tokens

/-! Nothing of a source is lost between its tokens. If all tokens are well formed, each begins right
behind blanks and comments, so the gaps and the texts of the tokens, one after the other, are the
source again. -/

namespace MicroCompiler

/-- The bytes from one offset up to another. -/
def Source.between (src : Source) (start stop : Nat) : List UInt8 :=
  (src.bytes.drop start).take (stop - start)

/-- Going on from offset to offset passes over all bytes. -/
theorem Source.between_append_drop (src : Source) {start stop : Nat} (h : start ≤ stop) :
    src.between start stop ++ src.bytes.drop stop = src.bytes.drop start := by
  have hsplit := List.take_append_drop (stop - start) (src.bytes.drop start)
  rwa [List.drop_drop, Nat.add_sub_cancel' h] at hsplit

/-- The bytes within the first and the last one. -/
theorem Source.between_inner {src : Source} {start stop : Nat} {b c : UInt8} {inner : List UInt8}
    (hfits : stop ≤ src.size) (h : src.between start stop = b :: inner ++ [c]) :
    src.between (start + 1) (stop - 1) = inner := by
  have hlength := congrArg List.length h
  simp only [between, List.length_take, List.length_drop, List.cons_append, List.length_cons,
    List.length_append, List.length_nil] at hlength
  rw [size] at hfits
  calc src.between (start + 1) (stop - 1)
    _ = ((src.between start stop).drop 1).take inner.length := by
        rw [between, between, List.drop_take, List.take_take, List.drop_drop,
          show min inner.length (stop - start - 1) = stop - 1 - (start + 1) by omega]
    _ = inner := by rw [h, List.cons_append, List.drop_one, List.tail_cons, List.take_left]

namespace Token

/-! ### Gaps -/

/-- Blanks and comments in front of the bytes `after`. A blank is a space, a tab, a carriage return
or a line feed. A comment is two slashes and what follows up to a line feed or to the end of all
bytes. -/
inductive IsGap (after : List UInt8) : List UInt8 → Prop where
  | nil : IsGap after []
  | blank {b : UInt8} {gap : List UInt8} : b ∈ [32, 9, 13, 10] → IsGap after gap →
    IsGap after (b :: gap)
  | comment {text gap : List UInt8} : lineFeedByte ∉ text → (∀ b ∈ (gap ++ after).head?, b =
    lineFeedByte) → IsGap after gap → IsGap after (slashByte :: slashByte :: text ++ gap)

/-- Inside a comment, the rest of the comment comes first. -/
def IsGapTail (after gap : List UInt8) : Prop :=
  ∃ text rest, gap = text ++ rest ∧ lineFeedByte ∉ text ∧ (∀ b ∈ (rest ++ after).head?,
    b = lineFeedByte) ∧ IsGap after rest

variable {after gap : List UInt8}

theorem mem_blanks {b : UInt8} (h : isBlank b) : b ∈ [32, 9, 13, 10] := by
  simp only [isBlank, Bool.or_eq_true, beq_iff_eq] at h
  simp only [List.mem_cons]
  tauto

theorem isBlank_of_mem_blanks {b : UInt8} (h : b ∈ [32, 9, 13, 10]) : isBlank b :=
  List.all_eq_true.mp (show [32, 9, 13, 10].all isBlank from rfl) b h

theorem IsGap.lineFeed (h : IsGap after gap) : IsGapTail after (lineFeedByte :: gap) :=
  ⟨[], lineFeedByte :: gap, rfl, by simp, by simp, .blank (by decide) h⟩

theorem IsGapTail.cons {b : UInt8} (h : IsGapTail after gap) (hb : b ≠ lineFeedByte) :
    IsGapTail after (b :: gap) := by
  obtain ⟨text, rest, rfl, htext, hend, hrest⟩ := h
  exact ⟨b :: text, rest, rfl, by simpa using ⟨hb.symm, htext⟩, hend, hrest⟩

/-- The second slash belongs to the comment, so the first one begins a comment. -/
theorem IsGapTail.open (h : IsGapTail after (slashByte :: gap)) :
    IsGap after (slashByte :: slashByte :: gap) := by
  obtain ⟨text, rest, heq, htext, hend, hrest⟩ := h
  cases text with
  | nil =>
    obtain rfl : slashByte :: gap = rest := heq
    exact absurd (hend slashByte rfl) (by decide)
  | cons b text =>
    obtain ⟨rfl, rfl⟩ := List.cons.inj heq
    rw [List.mem_cons, not_or] at htext
    exact .comment htext.2 hend hrest

/-- What the scanner skips is a gap, and the rest of a comment and a gap if it starts inside a
comment. -/
theorem isGap_take (bytes : List UInt8) :
    IsGap (bytes.drop (gapLength false bytes)) (bytes.take (gapLength false bytes)) ∧
      IsGapTail (bytes.drop (gapLength true bytes)) (bytes.take (gapLength true bytes)) := by
  induction bytes with
  | nil => exact ⟨.nil, [], [], rfl, by simp, by simp, .nil⟩
  | cons b rest ih =>
    obtain ⟨hgap, htail⟩ := ih
    constructor
    · simp only [gapLength]
      split_ifs with hblank hslashes
      · rw [Nat.add_comm 1]
        exact .blank (mem_blanks hblank) hgap
      · obtain ⟨rfl, hhead⟩ := hslashes
        obtain ⟨tail, rfl⟩ : ∃ tail, rest = slashByte :: tail := List.head?_eq_some_iff.mp hhead
        simp only [gapLength, Nat.add_comm 1, List.drop_succ_cons, List.take_succ_cons] at htail ⊢
        exact htail.open
      · exact .nil
    · simp only [gapLength, Nat.add_comm 1, List.drop_succ_cons, List.take_succ_cons]
      by_cases hb : b = lineFeedByte
      · subst hb
        exact hgap.lineFeed
      · rw [bne_iff_ne.mpr hb]
        exact htail.cons hb

/-! ### Where tokens stand -/

/-- A well-formed token begins right behind the gap. -/
theorem next_start {bytes : List UInt8} {offset : Nat}
    (h : (next bytes offset).kind.isError = false) :
    (next bytes offset).span.start = offset + gapLength false (bytes.drop offset) := by
  simp only [next] at h ⊢
  generalize (bytes.drop offset).drop (gapLength false (bytes.drop offset)) = front at h ⊢
  cases front with
  | nil => rfl
  | cons b rest => rw [(lexeme_solid h).1, Nat.add_zero]

theorem next_isGap {src : Source} {offset : Nat}
    (h : (next src.bytes offset).kind.isError = false) :
    IsGap (src.bytes.drop (next src.bytes offset).span.start)
      (src.between offset (next src.bytes offset).span.start) := by
  rw [next_start h, Source.between, Nat.add_sub_cancel_left, ← List.drop_drop]
  exact (isGap_take (src.bytes.drop offset)).1

/-- The end of the file is an empty token behind the last byte. -/
theorem next_eof {bytes : List UInt8} {offset : Nat} (hle : offset ≤ bytes.length)
    (h : (next bytes offset).kind = .eof) : next bytes offset = ⟨.eof, .point bytes.length⟩ := by
  have hgap := gapLength_le false (bytes.drop offset)
  simp only [next] at h ⊢
  cases hfront : (bytes.drop offset).drop (gapLength false (bytes.drop offset)) with
  | nil =>
    have hlength := congrArg List.length hfront
    simp only [List.length_drop, List.length_nil] at hlength hgap
    have hend : offset + gapLength false (bytes.drop offset) = bytes.length := by omega
    simp only [lexeme, Span.point, hend, Nat.add_zero]
  | cons b rest => exact absurd h (by rw [hfront]; exact (lexeme_covers b rest).1)

/-- Gaps and tokens take turns from the offset on, and the end of the file comes last. -/
inductive Laid (src : Source) : Nat → List Token → Prop where
  | eof {offset : Nat} : offset ≤ src.size → IsGap (src.bytes.drop src.size)
    (src.between offset src.size) → Laid src offset [⟨.eof, .point src.size⟩]
  | token {offset : Nat} {t : Token} {ts : List Token} : t.kind ≠ .eof → t.Solid src → offset ≤
    t.span.start → IsGap (src.bytes.drop t.span.start) (src.between offset t.span.start) →
    Laid src t.span.stop ts → Laid src offset (t :: ts)

theorem scanAll_laid {src : Source} {offset : Nat} (hle : offset ≤ src.size)
    (hproper : ∀ t ∈ scanAll src.bytes offset, t.kind.isError = false) :
    Laid src offset (scanAll src.bytes offset) := by
  induction hn : src.bytes.length - offset using Nat.strongRecOn generalizing offset with
  | _ n ih =>
    rw [scanAll_eq] at hproper ⊢
    split_ifs at hproper ⊢ with heof
    · have hgap := next_isGap (hproper _ (List.mem_singleton_self _))
      rw [next_eof hle heof] at hgap ⊢
      exact .eof hle hgap
    · have hnext := next_of_ne_eof heof
      rw [List.forall_mem_cons] at hproper
      have hstart := next_start hproper.1
      exact .token heof (solid_next hproper.1 heof) (by omega) (next_isGap hproper.1)
        (ih _ (by omega) hnext.2 hproper.2 rfl)

/-! ### Putting the source together again -/

variable {src : Source} {offset : Nat} {ts : List Token}

theorem Laid.ordered (h : Laid src offset ts) :
    ts.Pairwise (fun t u => t.span.start < u.span.start ∧ t.span.stop ≤ u.span.start) ∧
      ∀ t ∈ ts, offset ≤ t.span.start := by
  induction h with
  | eof hle => exact ⟨List.pairwise_singleton _ _, by simpa [Span.point] using hle⟩
  | token hkind hsolid hle hgap hrest ih =>
    have hpos := hsolid.nonempty
    refine ⟨List.pairwise_cons.mpr ⟨fun u hu => ?_, ih.1⟩, List.forall_mem_cons.mpr
      ⟨hle, fun u hu => ?_⟩⟩
    · have := ih.2 u hu
      omega
    · have := ih.2 u hu
      omega

theorem Laid.ends (h : Laid src offset ts) :
    ∃ init, ts = init ++ [⟨.eof, .point src.size⟩] ∧ ∀ t ∈ init, t.kind ≠ .eof ∧ t.Solid src := by
  induction h with
  | eof hle => exact ⟨[], rfl, by simp⟩
  | @token offset t ts hkind hsolid hle hgap hrest ih =>
    obtain ⟨init, rfl, hinit⟩ := ih
    exact ⟨t :: init, rfl, List.forall_mem_cons.mpr ⟨⟨hkind, hsolid⟩, hinit⟩⟩

/-- Where the tokens end, or the offset if there are none. -/
def endOf (offset : Nat) (ts : List Token) : Nat := (ts.getLast?.map (·.span.stop)).getD offset

theorem endOf_cons (offset : Nat) (t : Token) (ts : List Token) :
    endOf offset (t :: ts) = endOf t.span.stop ts := by
  simp only [endOf, List.getLast?_cons, Option.map_some, Option.getD_some]
  cases ts.getLast? <;> rfl

theorem Laid.isGap (h : Laid src offset ts) {before behind : List Token} {t : Token}
    (hts : ts = before ++ t :: behind) :
    IsGap (src.bytes.drop t.span.start) (src.between (endOf offset before) t.span.start) := by
  induction h generalizing before with
  | eof hle hgap =>
    cases before with
    | nil =>
      obtain ⟨rfl, -⟩ := List.cons.inj hts
      exact hgap
    | cons u before => simp at hts
  | token hkind hsolid hle hgap hrest ih =>
    cases before with
    | nil =>
      obtain ⟨rfl, -⟩ := List.cons.inj hts
      exact hgap
    | cons u before =>
      obtain ⟨rfl, hrest⟩ := List.cons.inj hts
      rw [endOf_cons]
      exact ih hrest

/-- The bytes of the gaps and the tokens in turn: before each token what stands between it and the
token before, then its text. -/
def interleaved (src : Source) : Nat → List Token → List UInt8
  | _, [] => []
  | offset, t :: ts =>
    src.between offset t.span.start ++ (Source.ofString (t.text src)).bytes ++
      interleaved src t.span.stop ts

/-- Decoding the text of a span loses nothing if the span cuts no character. -/
theorem bytes_text {text : String} {s : Span} (hstart : (⟨s.start⟩ : String.Pos.Raw).IsValid text)
    (hstop : (⟨s.stop⟩ : String.Pos.Raw).IsValid text) (hle : s.start ≤ s.stop) :
    (Source.ofString ((Source.ofString text).text s)).bytes =
    (Source.ofString text).between s.start s.stop := by
  have hvalid := String.Pos.isValidUTF8_extract (s := text) ⟨_, hstart⟩ ⟨_, hstop⟩
  have hbytes : (⟨((Source.ofString text).between s.start s.stop).toArray⟩ : ByteArray) =
      text.toByteArray.extract s.start s.stop := by
    ext1
    apply Array.ext'
    simp [Source.between, Source.ofString, ByteArray.data_extract, List.extract_eq_take_drop]
  have hfits : s.stop ≤ (Source.ofString text).size := hstop.le_rawEndPos
  rw [text_eq_decoded hle hfits]
  exact (bytes_decoded _).trans (if_pos (hbytes ▸ hvalid))

theorem Solid.bytes_text {text : String} {t : Token} (h : t.Solid (.ofString text)) :
    (Source.ofString (t.text (.ofString text))).bytes = (Source.ofString text).between
    t.span.start t.span.stop :=
  Token.bytes_text h.starts.isValid h.stops.isValid h.nonempty.le

theorem Laid.interleaved_eq {text : String} (h : Laid (.ofString text) offset ts) :
    interleaved (.ofString text) offset ts = (Source.ofString text).bytes.drop offset := by
  induction h with
  | @eof offset hle hgap =>
    have hempty : (Source.ofString (Token.text ⟨.eof, .point (Source.ofString text).size⟩
        (.ofString text))).bytes = [] := by
      rw [Token.text, text_eq_decoded le_rfl le_rfl]
      simp only [Span.point, Nat.sub_self, List.take_zero]
      exact (bytes_decoded []).trans (ite_self _)
    have hrest := (Source.ofString text).between_append_drop hle
    rw [Source.size, List.drop_length, List.append_nil] at hrest
    rw [interleaved, interleaved, hempty, List.append_nil, List.append_nil]
    exact hrest
  | @token offset t ts hkind hsolid hle hgap hrest ih =>
    rw [interleaved, ih, hsolid.bytes_text, List.append_assoc,
      Source.between_append_drop _ hsolid.nonempty.le, Source.between_append_drop _ hle]

/-- The tokens of a text that can be scanned stand one behind the other, none but the end of the
file is empty, and in between are blanks and comments alone. So gaps and tokens together are the
text. -/
theorem tokenize_interleaves {text : String} {ts : List Token}
    (h : tokenize (.ofString text) = .ok ts) :
      (ts.Pairwise fun t u => t.span.start < u.span.start ∧ t.span.stop ≤ u.span.start) ∧
      (∃ init, ts = init ++ [⟨.eof, .point (Source.ofString text).size⟩] ∧
        ∀ t ∈ init, t.kind ≠ .eof ∧ t.span.start < t.span.stop) ∧
      (∀ before t behind, ts = before ++ t :: behind →
        IsGap ((Source.ofString text).bytes.drop t.span.start)
          ((Source.ofString text).between (endOf 0 before) t.span.start)) ∧
      interleaved (.ofString text) 0 ts = (Source.ofString text).bytes := by
  obtain ⟨rfl, hproper⟩ := Grammar.tokenize_eq_ok.mp h
  have hlaid := scanAll_laid (Nat.zero_le _) hproper
  obtain ⟨init, hinit, hsolid⟩ := hlaid.ends
  refine ⟨hlaid.ordered.1, ⟨init, hinit, fun t ht => ?_⟩, fun before t behind hts =>
    hlaid.isGap hts, hlaid.interleaved_eq⟩
  exact ⟨(hsolid t ht).1, (hsolid t ht).2.nonempty⟩

/-- A comment behind the first token and another one at the end of the text. -/
theorem tokenize_interleaves_comments :
    tokenize (.ofString "a // \"\n:// é") =
        .ok [⟨.identifier, ⟨0, 1⟩⟩, ⟨.colon, ⟨7, 8⟩⟩, ⟨.eof, ⟨13, 13⟩⟩] ∧
      interleaved (.ofString "a // \"\n:// é") 0 [⟨.identifier, ⟨0, 1⟩⟩, ⟨.colon, ⟨7, 8⟩⟩,
        ⟨.eof, ⟨13, 13⟩⟩] = (Source.ofString "a // \"\n:// é").bytes := by
  have htokens : tokenize (.ofString "a // \"\n:// é") =
      .ok [⟨.identifier, ⟨0, 1⟩⟩, ⟨.colon, ⟨7, 8⟩⟩, ⟨.eof, ⟨13, 13⟩⟩] := by decide +kernel
  exact ⟨htokens, (tokenize_interleaves htokens).2.2.2⟩

end Token

end MicroCompiler
