import MicroCompiler.Proofs.TokenEdges

/-! Texts as characters and as bytes. The scanner looks at bytes, and it finds its way by ASCII
bytes and by the bytes that continue a character. An ASCII byte is a character of its own wherever
it stands in a text, and a character begins wherever no continuation byte stands. -/

namespace MicroCompiler

open Token

/-- The bytes of characters. -/
def encoded (chars : List Char) : List UInt8 := chars.flatMap String.utf8EncodeChar

theorem Source.bytes_ofString (text : String) : (ofString text).bytes = encoded text.toList := by
  rw [ofString, ← String.utf8Encode_toList, List.utf8Encode]
  simp [encoded]

@[simp] theorem encoded_nil : encoded [] = [] := rfl

@[simp] theorem encoded_cons (c : Char) (chars : List Char) :
    encoded (c :: chars) = String.utf8EncodeChar c ++ encoded chars := List.flatMap_cons

@[simp] theorem encoded_append (chars more : List Char) :
    encoded (chars ++ more) = encoded chars ++ encoded more :=
  List.flatMap_append

theorem length_encoded_cons (c : Char) (chars : List Char) :
    (encoded (c :: chars)).length = c.utf8Size + (encoded chars).length := by
  rw [encoded_cons, List.length_append, String.length_utf8EncodeChar]

theorem length_le_encoded (chars : List Char) : chars.length ≤ (encoded chars).length := by
  induction chars with
  | nil => exact le_rfl
  | cons c chars ih =>
    have hpos := c.utf8Size_pos
    rw [length_encoded_cons, List.length_cons]
    omega

theorem Source.bytes_append (text more : String) :
    (ofString (text ++ more)).bytes = (ofString text).bytes ++ (ofString more).bytes := by
  rw [bytes_ofString, bytes_ofString, bytes_ofString, String.toList_append, encoded_append]

/-- A numeral has digits alone. -/
theorem not_mem_toString {c : Char} (h : c.isDigit = false) (n : Nat) :
    c ∉ (toString n).toList := by
  intro hmem
  rw [show toString n = n.repr from rfl, Nat.toList_repr] at hmem
  rw [Nat.isDigit_of_mem_toDigits (by decide) (by decide) hmem] at h
  cases h

/-! ### Bytes of one character -/

/-- What holds of all numbers below 256 holds of all bytes. -/
theorem forall_byte {p : UInt8 → Prop} (h : ∀ n < 256, p (UInt8.ofNat n)) (b : UInt8) : p b := by
  rw [← b.ofNat_toNat]
  exact h b.toNat b.toNat_lt

theorem isContinuation_iff (b : UInt8) : isContinuation b ↔ 128 ≤ b.toNat ∧ b.toNat < 192 := by
  revert b
  exact forall_byte (by decide +kernel)

theorem isUTF8FirstByte_iff (b : UInt8) :
    b.IsUTF8FirstByte ↔ b.toNat < 128 ∨ 192 ≤ b.toNat ∧ b.toNat < 248 := by
  revert b
  exact forall_byte (by simp only [UInt8.IsUTF8FirstByte]; decide +kernel)

/-- A character is one ASCII byte, or a first byte beyond ASCII and bytes that continue it. -/
theorem utf8EncodeChar_cases (c : Char) :
    c.toNat < 128 ∧ String.utf8EncodeChar c = [UInt8.ofNat c.toNat] ∨
      ∃ first rest, String.utf8EncodeChar c = first :: rest ∧ 192 ≤ first.toNat ∧
        first.toNat < 248 ∧ ∀ b ∈ rest, isContinuation b := by
  have hfirst {n : Nat} (h : 192 ≤ n ∧ n < 248) : 192 ≤ (UInt8.ofNat n).toNat ∧
      (UInt8.ofNat n).toNat < 248 := by
    rw [UInt8.toNat_ofNat']
    omega
  have hrest (n : Nat) : isContinuation (UInt8.ofNat (n % 64 + 128)) := by
    rw [isContinuation_iff, UInt8.toNat_ofNat']
    omega
  fun_cases String.utf8EncodeChar c with
  | case1 v hone => exact .inl ⟨Nat.lt_succ_of_le hone, rfl⟩
  | case2 v hone htwo =>
    obtain ⟨hlow, hhigh⟩ := hfirst (show 192 ≤ v / 64 % 32 + 192 ∧ v / 64 % 32 + 192 < 248 by omega)
    exact .inr ⟨_, _, rfl, hlow, hhigh, List.forall_mem_singleton.mpr (hrest _)⟩
  | case3 v hone htwo hthree =>
    obtain ⟨hlow, hhigh⟩ := hfirst (show 192 ≤ v / 4096 % 16 + 224 ∧ v / 4096 % 16 +
      224 < 248 by omega)
    exact .inr ⟨_, _, rfl, hlow, hhigh, List.forall_mem_cons.mpr ⟨hrest _,
      List.forall_mem_singleton.mpr (hrest _)⟩⟩
  | case4 v hone htwo hthree =>
    obtain ⟨hlow, hhigh⟩ := hfirst (show 192 ≤ v / 262144 % 8 + 240 ∧ v / 262144 % 8 +
      240 < 248 by omega)
    exact .inr ⟨_, _, rfl, hlow, hhigh, List.forall_mem_cons.mpr ⟨hrest _,
      List.forall_mem_cons.mpr ⟨hrest _, List.forall_mem_singleton.mpr (hrest _)⟩⟩⟩

/-- An ASCII byte belongs to the character with its number and to no other one. -/
theorem eq_of_mem_utf8EncodeChar {b : UInt8} {c d : Char} (h : b ∈ String.utf8EncodeChar c)
    (hb : b < 128) (hd : d.toNat = b.toNat) : c = d := by
  rw [UInt8.lt_iff_toNat_lt] at hb
  rcases utf8EncodeChar_cases c with ⟨hc, heq⟩ | ⟨first, rest, heq, hlow, -, hrest⟩ <;>
    rw [heq] at h
  · rw [List.mem_singleton.mp h, UInt8.toNat_ofNat'] at hd
    exact Char.toNat_inj.mp (by omega)
  · rcases List.mem_cons.mp h with rfl | hmem
    · exact absurd hb (Nat.not_lt.mpr (Nat.le_trans (by decide) hlow))
    · exact absurd hb (Nat.not_lt.mpr ((isContinuation_iff b).mp (hrest b hmem)).1)

/-- The bytes of a character begin with one that continues no other. -/
theorem head_utf8EncodeChar (c : Char) (bytes : List UInt8) :
    ∀ b ∈ (String.utf8EncodeChar c ++ bytes).head?, isContinuation b = false := by
  intro b hb
  rw [Bool.eq_false_iff, ne_eq, isContinuation_iff]
  rcases utf8EncodeChar_cases c with ⟨hc, heq⟩ | ⟨first, rest, heq, hlow, -, -⟩ <;> rw [heq] at hb
  · obtain rfl : UInt8.ofNat c.toNat = b := by simpa using hb
    rw [UInt8.toNat_ofNat']
    omega
  · obtain rfl : first = b := by simpa using hb
    omega

/-- Before bytes that continue nothing, the length of a character is found from its bytes. -/
theorem charLength_utf8EncodeChar (c : Char) {bytes : List UInt8}
    (h : ∀ b ∈ bytes.head?, isContinuation b = false) :
    charLength (String.utf8EncodeChar c ++ bytes) = c.utf8Size := by
  have hnone : bytes.takeWhile isContinuation = [] := by
    cases bytes with
    | nil => rfl
    | cons b bytes => simp [h b rfl]
  rw [← String.length_utf8EncodeChar]
  rcases utf8EncodeChar_cases c with ⟨-, heq⟩ | ⟨first, rest, heq, -, -, hrest⟩ <;> rw [heq]
  · simp [charLength, hnone]
  · simp only [List.cons_append, charLength, List.length_cons]
    rw [List.takeWhile_append_of_pos hrest, hnone, List.append_nil, Nat.add_comm]

/-! ### Where characters begin -/

theorem isUTF8FirstByte_or_isContinuation {b : UInt8} {chars : List Char} (h : b ∈ encoded chars) :
    b.IsUTF8FirstByte ∨ isContinuation b := by
  obtain ⟨c, -, hb⟩ := List.mem_flatMap.mp h
  rw [isUTF8FirstByte_iff, isContinuation_iff]
  rcases utf8EncodeChar_cases c with ⟨hc, heq⟩ | ⟨first, rest, heq, hlow, hhigh, hrest⟩ <;>
    rw [heq] at hb
  · rw [List.mem_singleton.mp hb, UInt8.toNat_ofNat']
    omega
  · rcases List.mem_cons.mp hb with rfl | hmem
    · omega
    · exact .inr ((isContinuation_iff _).mp (hrest b hmem))

/-- A character begins or the text ends where no continuation byte stands. -/
theorem Source.isValid_of_not_continuation {text : String} {offset : Nat}
    (hle : offset ≤ (ofString text).size)
    (h : ∀ b ∈ (ofString text).bytes[offset]?, isContinuation b = false) :
    (⟨offset⟩ : String.Pos.Raw).IsValid text := by
  rw [String.Pos.Raw.isValid_iff_isUTF8FirstByte]
  rcases Nat.lt_or_eq_of_le hle with hlt | heq
  · obtain ⟨b, hbyte⟩ : ∃ b, (ofString text).bytes[offset]? = some b :=
      ⟨_, List.getElem?_eq_getElem hlt⟩
    obtain ⟨hin, rfl⟩ := byte_ofString hbyte
    have hmem := List.mem_of_getElem? hbyte
    rw [bytes_ofString] at hmem
    rcases isUTF8FirstByte_or_isContinuation hmem with hfirst | hcontinues
    · exact .inr ⟨hin, hfirst⟩
    · exact absurd hcontinues (by simp [h _ hbyte])
  · exact .inl (by ext; simpa [size, ofString] using heq)

/-! ### Pieces of a text -/

theorem Source.size_ofString (text : String) :
    (ofString text).size = (encoded text.toList).length := by
  rw [size, bytes_ofString]

/-- Between two characters stands the offset that the characters before it take. -/
theorem Source.isValid_iff_encoded {text : String} {offset : Nat} :
    (⟨offset⟩ : String.Pos.Raw).IsValid text ↔
      ∃ before after, text.toList = before ++ after ∧ offset = (encoded before).length := by
  rw [String.Pos.Raw.isValid_iff_exists_append]
  constructor
  · rintro ⟨first, second, rfl, hoffset⟩
    refine ⟨first.toList, second.toList, String.toList_append, ?_⟩
    rw [← Source.size_ofString]
    exact congrArg String.Pos.Raw.byteIdx hoffset
  · rintro ⟨before, after, hsplit, rfl⟩
    refine ⟨String.ofList before, String.ofList after, ?_, ?_⟩
    · rw [← String.ofList_append, ← hsplit, String.ofList_toList]
    · ext
      rw [← String.toList_ofList (l := before), ← Source.size_ofString, String.toList_ofList]
      rfl

/-- The piece of a text between two groups of its characters. -/
theorem Source.slice?_encoded {text : String} {before piece after : List Char}
    (h : text.toList = before ++ piece ++ after) :
    (ofString text).slice? (encoded before).length (encoded (before ++ piece)).length =
    some (String.ofList piece) := by
  have hbytes : (ofString text).bytes = encoded before ++ (encoded piece ++ encoded after) := by
    rw [bytes_ofString, h, encoded_append, encoded_append, List.append_assoc]
  have hpiece : (⟨(encoded piece).toArray⟩ : ByteArray) = (String.ofList piece).toByteArray := by
    rw [← String.toList_ofList (l := piece), ← bytes_ofString, String.toList_ofList]
    rfl
  rw [slice?, if_pos, hbytes, List.drop_left, encoded_append, List.length_append,
    Nat.add_sub_cancel_left, List.take_left, hpiece, String.fromUTF8?, dif_pos
    (String.ofList piece).isValidUTF8]
  · rfl
  · rw [size, hbytes]
    simp only [encoded_append, List.length_append]
    omega

/-- A piece of a text that begins between two characters ends between two characters. -/
theorem Source.exists_of_slice? {text piece : String} {before rest : List Char} {stop : Nat}
    (hsplit : text.toList = before ++ rest)
    (h : (ofString text).slice? (encoded before).length stop = some piece) :
    ∃ after, rest = piece.toList ++ after ∧ stop = (encoded (before ++ piece.toList)).length := by
  rw [slice?] at h
  split at h
  next hrange =>
    have hbytes : (ofString text).bytes = encoded before ++ encoded rest := by
      rw [bytes_ofString, hsplit, encoded_append]
    rw [size, hbytes, List.length_append] at hrange
    rw [hbytes, List.drop_left, String.fromUTF8?] at h
    have hpiece : encoded piece.toList = (encoded rest).take (stop - (encoded before).length) := by
      rw [← bytes_ofString]
      split at h
      next =>
        obtain rfl := Option.some.inj h
        rfl
      next => cases h
    have hbehind : piece.toList.utf8Encode ++
        ((encoded rest).drop (stop - (encoded before).length)).toByteArray = rest.utf8Encode := by
      rw [List.utf8Encode, List.utf8Encode, ← List.toByteArray_append]
      congr 1
      exact (congrArg (· ++ _) hpiece).trans (List.take_append_drop _ _)
    obtain ⟨after, rfl⟩ := List.isPrefix_of_utf8Encode_append_eq_utf8Encode _ hbehind
    refine ⟨after, rfl, ?_⟩
    rw [encoded_append, List.length_append, hpiece, List.length_take]
    omega
  next => cases h

/-- Of two places in a text, the later one has the same characters before it and maybe more. -/
theorem exists_more_of_encoded_le {before after before' after' : List Char}
    (h : before ++ after = before' ++ after')
    (hle : (encoded before).length ≤ (encoded before').length) :
    ∃ more, before' = before ++ more := by
  rcases List.prefix_or_prefix_of_prefix ⟨after, h⟩ (List.prefix_append before' after') with ⟨more,
    rfl⟩ | ⟨more, rfl⟩
  · exact ⟨more, rfl⟩
  · rw [encoded_append, List.length_append] at hle
    have hmore := length_le_encoded more
    obtain rfl : more = [] := List.eq_nil_of_length_eq_zero (by omega)
    exact ⟨[], by simp⟩

end MicroCompiler
