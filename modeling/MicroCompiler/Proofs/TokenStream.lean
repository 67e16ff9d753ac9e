import Mathlib.Tactic.Common
import MicroCompiler.Token.Cursor
import MicroCompiler.Token.Stream

/-! The scanner always gets on: a token other than the end of the file covers bytes behind the
offset it was asked for, and the end of the file stays where it is. So all tokens from an offset on
are one token and all tokens from its end on, and what a cursor will still give is a list. -/

namespace MicroCompiler.Token

/-! ### Progress of the scanner -/

theorem gapLength_le (inComment : Bool) (bytes : List UInt8) :
    gapLength inComment bytes ≤ bytes.length := by
  induction bytes generalizing inComment with
  | nil => cases inComment <;> simp [gapLength]
  | cons b rest ih =>
    cases inComment with
    | true =>
      have := ih (b != lineFeedByte)
      simp only [gapLength, List.length_cons]
      omega
    | false =>
      have hblank := ih false
      have hcomment := ih true
      simp only [gapLength, List.length_cons]
      split_ifs <;> omega

/-- The lexeme covers some of the bytes that it begins. -/
def Lexeme.Covers (lex : Lexeme) (bytes : List UInt8) : Prop :=
  lex.kind ≠ .eof ∧ 0 < lex.length ∧ lex.skip + lex.length ≤ bytes.length

private theorem takeWhile_length_le (p : UInt8 → Bool) (bytes : List UInt8) :
    (bytes.takeWhile p).length ≤ bytes.length := (List.takeWhile_prefix p).length_le

theorem find?_getD_ne (p : Kind → Bool) (kinds : List Kind) (other : Kind) {kind : Kind}
    (h : kind ∉ kinds) (ho : other ≠ kind) : (kinds.find? p).getD other ≠ kind := by
  cases hf : kinds.find? p with
  | none => exact ho
  | some k =>
    rintro rfl
    exact h (List.mem_of_find?_eq_some hf)

theorem wordLexeme_covers {b : UInt8} {rest : List UInt8} (h : isNameStart b) :
    (wordLexeme (b :: rest)).Covers (b :: rest) := by
  have hle := takeWhile_length_le isNamePart (b :: rest)
  have hpos : 0 < ((b :: rest).takeWhile isNamePart).length := by simp [isNamePart, h]
  refine ⟨find?_getD_ne _ _ _ (by decide) (by decide), hpos, ?_⟩
  simpa [wordLexeme] using hle

theorem directiveLexeme_covers (b : UInt8) (rest : List UInt8) :
    (directiveLexeme rest).Covers (b :: rest) := by
  have hle := takeWhile_length_le isNamePart rest
  simp only [directiveLexeme]
  split_ifs
  · refine ⟨find?_getD_ne _ _ _ (by decide) (by decide), by simp only; omega, ?_⟩
    simp only [List.length_cons]
    omega
  · exact ⟨by decide, Nat.one_pos, by simp⟩

theorem numberLexeme_covers {b : UInt8} {rest : List UInt8} (h : isDigit b) :
    (numberLexeme (b :: rest)).Covers (b :: rest) := by
  have hle := takeWhile_length_le isDigit (b :: rest)
  have hpos : 0 < ((b :: rest).takeWhile isDigit).length := by simp [h]
  simp only [numberLexeme]
  split
  next point after hdrop =>
    have hsum := congrArg List.length hdrop
    have hfrac := takeWhile_length_le isDigit after
    simp only [List.length_drop, List.length_cons] at hsum hle
    split_ifs
    · exact ⟨by simp, by simp only; omega, by simp only [List.length_cons]; omega⟩
    · exact ⟨by simp, hpos, by simpa using hle⟩
  next => exact ⟨by simp, hpos, by simpa using hle⟩

theorem charLength_le (bytes : List UInt8) : charLength bytes ≤ bytes.length := by
  cases bytes with
  | nil => simp [charLength]
  | cons b rest =>
    have := takeWhile_length_le isContinuation rest
    simp only [charLength, List.length_cons]
    omega

theorem stringLexeme_bounds (read : Nat) (bytes : List UInt8) :
    (stringLexeme read bytes).kind ≠ .eof ∧ min read 1 ≤ (stringLexeme read bytes).length ∧
      (stringLexeme read bytes).skip + (stringLexeme read bytes).length ≤ read + bytes.length := by
  fun_induction stringLexeme read bytes with
  | case7 read c after _ _ _ _ =>
    have := charLength_le (c :: after)
    simp only [List.length_cons] at this ⊢
    exact ⟨by simp, by omega, by omega⟩
  | _ => grind

theorem symbolLexeme_covers (b : UInt8) (rest : List UInt8) :
    (symbolLexeme (b :: rest)).Covers (b :: rest) := by
  unfold symbolLexeme
  split
  next kind hfind =>
    have hmem := List.mem_of_find?_eq_some hfind
    have hprefix : kind.spellingBytes <+: b :: rest := by simpa using List.find?_some hfind
    have hkind : ∀ k ∈ Kind.symbols, k ≠ .eof ∧ 0 < k.spellingBytes.length := by decide
    exact ⟨(hkind kind hmem).1, (hkind kind hmem).2, by simpa using hprefix.length_le⟩
  next =>
    exact ⟨by simp, by simp only [charLength]; omega, by simpa using charLength_le (b :: rest)⟩

theorem lexeme_covers (b : UInt8) (rest : List UInt8) :
    (lexeme (b :: rest)).Covers (b :: rest) := by
  simp only [lexeme]
  split_ifs with hname hdigit
  · exact wordLexeme_covers hname
  · exact numberLexeme_covers hdigit
  · obtain ⟨hkind, hpos, hle⟩ := stringLexeme_bounds 1 rest
    exact ⟨hkind, by omega, by simp only [List.length_cons]; omega⟩
  · exact directiveLexeme_covers b rest
  · exact symbolLexeme_covers b rest

theorem next_of_ne_eof {bytes : List UInt8} {offset : Nat} (h : (next bytes offset).kind ≠ .eof) :
    offset < (next bytes offset).span.stop ∧ (next bytes offset).span.stop ≤ bytes.length := by
  have hgap := gapLength_le false (bytes.drop offset)
  simp only [next] at h ⊢
  cases hrest : (bytes.drop offset).drop (gapLength false (bytes.drop offset)) with
  | nil => simp [hrest, lexeme] at h
  | cons b rest =>
    obtain ⟨-, hpos, hle⟩ := lexeme_covers b rest
    have hlen := congrArg List.length hrest
    simp only [List.length_drop, List.length_cons] at hlen hle hgap
    constructor <;> omega

theorem next_of_eof {bytes : List UInt8} {offset : Nat} (h : (next bytes offset).kind = .eof) :
    next bytes (next bytes offset).span.stop = next bytes offset := by
  have hgap := gapLength_le false (bytes.drop offset)
  simp only [next] at h ⊢
  cases hrest : (bytes.drop offset).drop (gapLength false (bytes.drop offset)) with
  | nil =>
    have hlen := congrArg List.length hrest
    simp only [List.length_drop, List.length_nil] at hlen
    have hend : bytes.drop (offset + gapLength false (bytes.drop offset)) = [] :=
      List.drop_eq_nil_of_le (by omega)
    simp [lexeme, hend, gapLength]
  | cons b rest => exact absurd h (by rw [hrest]; exact (lexeme_covers b rest).1)

/-! ### All tokens from an offset on -/

private theorem scanFrom_steps {bytes : List UInt8} {m n : Nat} (offset : Nat)
    (hm : bytes.length - offset < m) (hn : bytes.length - offset < n) :
    scanFrom bytes offset m = scanFrom bytes offset n := by
  induction m generalizing offset n with
  | zero => omega
  | succ m ih =>
    obtain _ | n := n
    · omega
    simp only [scanFrom]
    split_ifs with heof
    · rfl
    · have := next_of_ne_eof heof
      exact congrArg _ (ih _ (by omega) (by omega))

theorem scanAll_eq (bytes : List UInt8) (offset : Nat) :
    scanAll bytes offset =
      if (next bytes offset).kind = .eof then [next bytes offset]
      else next bytes offset :: scanAll bytes (next bytes offset).span.stop := by
  conv_lhs => rw [scanAll, scanFrom]
  split_ifs with heof
  · rfl
  · have := next_of_ne_eof heof
    exact congrArg _ (scanFrom_steps _ (by omega) (by omega))

private theorem scanFrom_length_le (bytes : List UInt8) (offset steps : Nat) :
    (scanFrom bytes offset steps).length ≤ steps := by
  induction steps generalizing offset with
  | zero => simp [scanFrom]
  | succ steps ih =>
    have := ih (next bytes offset).span.stop
    simp only [scanFrom]
    split_ifs <;> simp only [List.length_cons, List.length_nil] <;> omega

theorem scanAll_length_le (bytes : List UInt8) : (scanAll bytes 0).length ≤ bytes.length + 1 :=
  scanFrom_length_le bytes 0 _

namespace Cursor

/-! ### What a cursor will give -/

/-- The token read ahead comes from the scanner, and the next scan starts where it ends. -/
def Sound (c : Cursor) (src : Source) : Prop :=
  ∀ t ∈ c.ahead, (∃ offset, t = Token.next src.bytes offset) ∧ c.offset = t.span.stop

/-- The tokens to come, the end of the file once. -/
def rest (c : Cursor) (src : Source) : List Token :=
  match c.ahead with
  | some t => if t.kind = .eof then [t] else t :: scanAll src.bytes c.offset
  | none => scanAll src.bytes c.offset

theorem sound_start (src : Source) : start.Sound src := by simp [Sound, start]

@[simp] theorem rest_start (src : Source) : start.rest src = scanAll src.bytes 0 := rfl

theorem sound_peek {c : Cursor} {src : Source} (h : c.Sound src) : (c.peek src).2.Sound src := by
  unfold peek
  split
  · exact h
  · rintro t ht
    obtain rfl := Option.mem_some_iff.mp ht
    exact ⟨⟨_, rfl⟩, rfl⟩

@[simp] theorem rest_peek (c : Cursor) (src : Source) : (c.peek src).2.rest src = c.rest src := by
  unfold peek
  split
  · rfl
  next hnone => simp only [rest, hnone]; rw [scanAll_eq src.bytes c.offset]

theorem rest_eq (c : Cursor) (src : Source) :
    c.rest src = if (c.peek src).1.kind = .eof then [(c.peek src).1]
      else (c.peek src).1 :: (c.eat src).2.rest src := by
  cases ha : c.ahead with
  | some t => simp [rest, eat, peek, ha]
  | none =>
    simp only [rest, eat, peek, ha]
    exact scanAll_eq src.bytes c.offset

theorem sound_eat (c : Cursor) (src : Source) : (c.eat src).2.Sound src := by simp [Sound, eat]

/-- The end of the file can be read again and again. -/
theorem rest_eat_eof {c : Cursor} {src : Source} (h : c.Sound src)
    (heof : (c.peek src).1.kind = .eof) : (c.eat src).2.rest src = c.rest src := by
  have hs := sound_peek h
  rw [rest_eq c, if_pos heof]
  obtain ⟨⟨offset, ho⟩, hoff⟩ := hs (c.peek src).1 (by unfold peek; split <;> simp_all)
  simp only [eat, rest]
  rw [hoff, scanAll_eq, ho, next_of_eof (ho ▸ heof), if_pos (ho ▸ heof)]

theorem sound_reset {c : Cursor} {src : Source} (h : c.Sound src) :
    (reset (c.peek src).1).Sound src := by
  obtain ⟨ho, -⟩ := sound_peek h (c.peek src).1 (by unfold peek; split <;> simp_all)
  simpa [Sound, reset] using ho

/-- Going back to the token that was next before restores everything to come. -/
theorem rest_reset {c : Cursor} {src : Source} (h : c.Sound src) :
    (reset (c.peek src).1).rest src = c.rest src := by
  obtain ⟨-, hoff⟩ := sound_peek h (c.peek src).1 (by unfold peek; split <;> simp_all)
  rw [rest_eq c]
  simp only [rest, reset, eat]
  rw [hoff]

end Cursor

end MicroCompiler.Token
