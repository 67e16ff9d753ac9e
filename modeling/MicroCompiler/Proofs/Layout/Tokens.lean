import MicroCompiler.Proofs.TokenEdges

/-! Two layouts of the same tokens. Sources that differ in blanks and comments alone have tokens
that correspond to each other one by one. Offsets correspond if they are where corresponding tokens
begin, or where they end; both ways keep the order of offsets, so whatever is decided by comparing
offsets is decided alike. -/

namespace MicroCompiler

/-! ### The order of tokens -/

/-- All tokens, error tokens included. -/
def Source.tokens (src : Source) : List Token := Token.scanAll src.bytes 0

namespace Token

theorem mem_scanAll {bytes : List UInt8} {offset : Nat} {t : Token} (h : t ∈ scanAll bytes offset) :
    ∃ o, offset ≤ o ∧ t = next bytes o := by
  induction hn : bytes.length - offset using Nat.strongRecOn generalizing offset with
  | _ n ih =>
    rw [scanAll_eq] at h
    split_ifs at h with heof
    · exact ⟨offset, le_rfl, List.mem_singleton.mp h⟩
    · have hnext := next_of_ne_eof heof
      rcases List.mem_cons.mp h with rfl | h
      · exact ⟨offset, le_rfl, rfl⟩
      · obtain ⟨o, ho, ht⟩ := ih _ (by omega) h rfl
        exact ⟨o, by omega, ht⟩

/-- Tokens come one behind the other, and all but the last cover something. -/
theorem scanAll_ordered {src : Source} {offset : Nat}
    (hproper : ∀ t ∈ scanAll src.bytes offset, t.kind.isError = false) :
    (scanAll src.bytes offset).Pairwise fun t u => t.span.start < t.span.stop ∧
    t.span.stop ≤ u.span.start := by
  induction hn : src.bytes.length - offset using Nat.strongRecOn generalizing offset with
  | _ n ih =>
    rw [scanAll_eq] at hproper ⊢
    split_ifs at hproper ⊢ with heof
    · exact List.pairwise_singleton _ _
    · have hnext := next_of_ne_eof heof
      rw [List.forall_mem_cons] at hproper
      have hsolid := solid_next hproper.1 heof
      refine List.pairwise_cons.mpr ⟨fun u hu => ⟨hsolid.nonempty, ?_⟩,
        ih _ (by omega) hproper.2 rfl⟩
      obtain ⟨o, ho, rfl⟩ := mem_scanAll hu
      simp only [next] at ho ⊢
      omega

theorem start_le_stop_of_mem {bytes : List UInt8} {offset : Nat} {t : Token}
    (h : t ∈ scanAll bytes offset) : t.span.start ≤ t.span.stop := by
  obtain ⟨o, -, rfl⟩ := mem_scanAll h
  exact Nat.le_add_right _ _

end Token

/-! ### Corresponding tokens -/

/-- The tokens of the sources have the same kinds and texts, and none of them is malformed. -/
structure Relaid (src src' : Source) : Prop where
  proper : ∀ t ∈ src.tokens, t.kind.isError = false
  same : src.tokens.map (fun t => (t.kind, t.text src)) = src'.tokens.map fun t =>
    (t.kind, t.text src')

/-- The tokens stand at the same place among the tokens of their sources. -/
def Twins (src src' : Source) (t t' : Token) : Prop :=
  ∃ i : Nat, src.tokens[i]? = some t ∧ src'.tokens[i]? = some t'

variable {src src' : Source} {t t' : Token}

theorem Relaid.alike {i : Nat} (h : Relaid src src') (ht : src.tokens[i]? = some t)
    (ht' : src'.tokens[i]? = some t') : t.kind = t'.kind ∧ t.text src = t'.text src' := by
  have hat := congrArg (·[i]?) h.same
  simp only [List.getElem?_map, ht, ht', Option.map_some, Option.some.injEq, Prod.mk.injEq] at hat
  exact hat

theorem Relaid.length_eq (h : Relaid src src') : src.tokens.length = src'.tokens.length := by
  simpa using congrArg List.length h.same

theorem Relaid.symm (h : Relaid src src') : Relaid src' src := by
  refine ⟨fun t' ht' => ?_, h.same.symm⟩
  obtain ⟨i, hi, rfl⟩ := List.mem_iff_getElem.mp ht'
  have hlt : i < src.tokens.length := by rwa [h.length_eq]
  rw [← (h.alike (List.getElem?_eq_getElem hlt) (List.getElem?_eq_getElem hi)).1]
  exact h.proper _ (List.getElem_mem hlt)

theorem Twins.symm (h : Twins src src' t t') : Twins src' src t' t := by
  obtain ⟨i, ht, ht'⟩ := h
  exact ⟨i, ht', ht⟩

theorem Twins.kind (h : Relaid src src') (ht : Twins src src' t t') : t.kind = t'.kind := by
  obtain ⟨i, ht, ht'⟩ := ht
  exact (h.alike ht ht').1

theorem Twins.text (h : Relaid src src') (ht : Twins src src' t t') :
    src.text t.span = src'.text t'.span := by
  obtain ⟨i, ht, ht'⟩ := ht
  exact (h.alike ht ht').2

theorem Twins.mem (h : Twins src src' t t') : t ∈ src.tokens := by
  obtain ⟨i, ht, -⟩ := h
  exact List.mem_of_getElem? ht

/-- An earlier token ends before a later one begins. -/
theorem Relaid.before (h : Relaid src src') {i j : Nat} (hlt : i < j) {t u : Token}
    (ht : src.tokens[i]? = some t) (hu : src.tokens[j]? = some u) :
    t.span.start < t.span.stop ∧ t.span.stop ≤ u.span.start ∧ u.span.start ≤ u.span.stop := by
  obtain ⟨hi, rfl⟩ := List.getElem?_eq_some_iff.mp ht
  obtain ⟨hj, rfl⟩ := List.getElem?_eq_some_iff.mp hu
  obtain ⟨hpos, hle⟩ := List.pairwise_iff_getElem.mp (Token.scanAll_ordered h.proper) i j hi hj hlt
  exact ⟨hpos, hle, Token.start_le_stop_of_mem (List.getElem_mem hj)⟩

/-! ### Corresponding offsets -/

/-- The offsets are where corresponding tokens begin. -/
def SameStart (src src' : Source) (a a' : Nat) : Prop :=
  ∃ t t', Twins src src' t t' ∧ a = t.span.start ∧ a' = t'.span.start

/-- The offsets are where corresponding tokens end. -/
def SameStop (src src' : Source) (a a' : Nat) : Prop :=
  ∃ t t', Twins src src' t t' ∧ a = t.span.stop ∧ a' = t'.span.stop

/-- The spans reach from one token to another, and these correspond. -/
def SameEnds (src src' : Source) (s s' : Span) : Prop :=
  SameStart src src' s.start s'.start ∧ SameStop src src' s.stop s'.stop

variable {a a' b b' : Nat} {s s' r r' : Span}

theorem Twins.starts (h : Twins src src' t t') : SameStart src src' t.span.start t'.span.start :=
  ⟨t, t', h, rfl, rfl⟩

theorem Twins.stops (h : Twins src src' t t') : SameStop src src' t.span.stop t'.span.stop :=
  ⟨t, t', h, rfl, rfl⟩

theorem Twins.spans (h : Twins src src' t t') : SameEnds src src' t.span t'.span :=
  ⟨h.starts, h.stops⟩

/-- Where tokens begin tells them apart, and in the same order in both sources. -/
theorem SameStart.trichotomy (h : Relaid src src') (ha : SameStart src src' a a')
    (hb : SameStart src src' b b') : a < b ∧ a' < b' ∨ a = b ∧ a' = b' ∨ b < a ∧ b' < a' := by
  obtain ⟨t, t', ⟨i, ht, ht'⟩, rfl, rfl⟩ := ha
  obtain ⟨u, u', ⟨j, hu, hu'⟩, rfl, rfl⟩ := hb
  rcases Nat.lt_trichotomy i j with hlt | rfl | hlt
  · have := h.before hlt ht hu
    have := h.symm.before hlt ht' hu'
    omega
  · obtain rfl := Option.some.inj (ht.symm.trans hu)
    obtain rfl := Option.some.inj (ht'.symm.trans hu')
    exact .inr (.inl ⟨rfl, rfl⟩)
  · have := h.before hlt hu ht
    have := h.symm.before hlt hu' ht'
    omega

theorem SameStart.min (h : Relaid src src') (ha : SameStart src src' a a')
    (hb : SameStart src src' b b') : SameStart src src' (min a b) (min a' b') := by
  rcases ha.trichotomy h hb with ⟨hlt, hlt'⟩ | ⟨rfl, rfl⟩ | ⟨hlt, hlt'⟩
  · rwa [Nat.min_eq_left hlt.le, Nat.min_eq_left hlt'.le]
  · rwa [Nat.min_self, Nat.min_self]
  · rwa [Nat.min_eq_right hlt.le, Nat.min_eq_right hlt'.le]

/-- Of two ends, the one of the later token is the greater one in both sources. -/
theorem SameStop.max (h : Relaid src src') (ha : SameStop src src' a a')
    (hb : SameStop src src' b b') : SameStop src src' (max a b) (max a' b') := by
  have hsame := ha
  have hsame' := hb
  obtain ⟨t, t', ⟨i, ht, ht'⟩, rfl, rfl⟩ := ha
  obtain ⟨u, u', ⟨j, hu, hu'⟩, rfl, rfl⟩ := hb
  rcases Nat.lt_trichotomy i j with hlt | rfl | hlt
  · have := h.before hlt ht hu
    have := h.symm.before hlt ht' hu'
    rwa [Nat.max_eq_right (by omega), Nat.max_eq_right (by omega)]
  · obtain rfl := Option.some.inj (ht.symm.trans hu)
    obtain rfl := Option.some.inj (ht'.symm.trans hu')
    rwa [Nat.max_self, Nat.max_self]
  · have := h.before hlt hu ht
    have := h.symm.before hlt hu' ht'
    rwa [Nat.max_eq_left (by omega), Nat.max_eq_left (by omega)]

theorem SameEnds.merge (h : Relaid src src') (hs : SameEnds src src' s s')
    (hr : SameEnds src src' r r') : SameEnds src src' (s.merge r) (s'.merge r') :=
    ⟨hs.1.min h hr.1, hs.2.max h hr.2⟩

/-! ### Covered tokens -/

/-- The span reaches from the start of one token, given by its place, to the end of another. -/
def Span.Reaches (s : Span) (src : Source) (i j : Nat) : Prop :=
  ∃ t u, src.tokens[i]? = some t ∧ src.tokens[j]? = some u ∧ s = ⟨t.span.start, u.span.stop⟩

/-- The spans cover tokens at the same places. -/
def CoverSame (src src' : Source) (s s' : Span) : Prop :=
  ∃ i j, i ≤ j ∧ s.Reaches src i j ∧ s'.Reaches src' i j

theorem Twins.coverSame (h : Twins src src' t t') : CoverSame src src' t.span t'.span := by
  obtain ⟨i, ht, ht'⟩ := h
  exact ⟨i, i, le_rfl, ⟨t, t, ht, ht, rfl⟩, t', t', ht', ht', rfl⟩

theorem CoverSame.starts (h : CoverSame src src' s s') : SameStart src src' s.start s'.start := by
  obtain ⟨i, j, -, ⟨t, u, ht, -, rfl⟩, t', u', ht', -, rfl⟩ := h
  exact ⟨t, t', ⟨i, ht, ht'⟩, rfl, rfl⟩

/-- A span that covers something does not begin behind its end. -/
theorem SameEnds.coverSame (h : Relaid src src') (hs : SameEnds src src' s s')
    (hpos : s.start < s.stop) : CoverSame src src' s s' := by
  obtain ⟨⟨t, t', ⟨i, ht, ht'⟩, hstart, hstart'⟩, u, u', ⟨j, hu, hu'⟩, hstop, hstop'⟩ := hs
  refine ⟨i, j, ?_, ⟨t, u, ht, hu, by rw [← hstart, ← hstop]⟩, t', u', ht',
    hu', by rw [← hstart', ← hstop']⟩
  by_contra hlt
  have := h.before (Nat.lt_of_not_le hlt) hu ht
  omega

/-! ### Texts inside quotes -/

theorem isValidUTF8_push {b : UInt8} (h : b < 128) {bytes : ByteArray}
    (hbytes : bytes.IsValidUTF8) : (bytes.push b).IsValidUTF8 := by
  have hchars : ∀ n < 128, (Char.ofNat n).utf8Size = 1 ∧
      (Char.ofNat n).toUInt8 = UInt8.ofNat n := by decide
  obtain ⟨hsize, hbyte⟩ := hchars b.toNat (UInt8.lt_iff_toNat_lt.mp h)
  rw [UInt8.ofNat_toNat] at hbyte
  rw [← hbyte]
  exact hbytes.push hsize

/-- What bytes say, nothing if they are no UTF-8. -/
def decoded (bytes : List UInt8) : String := (String.fromUTF8? ⟨bytes.toArray⟩).getD ""

theorem text_eq_decoded {src : Source} {s : Span} (hle : s.start ≤ s.stop)
    (hfits : s.stop ≤ src.size) :
    src.text s = decoded ((src.bytes.drop s.start).take (s.stop - s.start)) := by
  rw [Source.text, Source.slice?, if_pos ⟨hle, hfits⟩]
  rfl

/-- Bytes between two ASCII bytes are UTF-8 if all of them are. -/
theorem isValidUTF8_quoted {b c : UInt8} (hb : b < 128) (hc : c < 128) {inner : List UInt8}
    (h : (⟨inner.toArray⟩ : ByteArray).IsValidUTF8) :
    (⟨(b :: inner ++ [c]).toArray⟩ : ByteArray).IsValidUTF8 := by
  have hall := isValidUTF8_push hc ((isValidUTF8_push hb ByteArray.isValidUTF8_empty).append h)
  have heq : (ByteArray.empty.push b ++ ⟨inner.toArray⟩).push c =
      ⟨(b :: inner ++ [c]).toArray⟩ := by
    ext1
    simp [ByteArray.data_push, ByteArray.data_append]
  rwa [heq] at hall

theorem bytes_decoded (bytes : List UInt8) :
    (decoded bytes).toByteArray.data.toList = if (⟨bytes.toArray⟩ : ByteArray).IsValidUTF8 then
    bytes else [] := by
  unfold decoded String.fromUTF8?
  split_ifs <;> rfl

theorem decoded_eq_empty {bytes : List UInt8} (h : ¬ (⟨bytes.toArray⟩ : ByteArray).IsValidUTF8) :
    decoded bytes = "" := by
  rw [decoded, String.fromUTF8?, dif_neg h]
  rfl

/-- Texts between ASCII bytes are the same if the texts with these bytes are. -/
theorem decoded_inner {b c b' c' : UInt8} {inner inner' : List UInt8} (hb : b < 128) (hc : c < 128)
    (hb' : b' < 128) (hc' : c' < 128)
    (h : decoded (b :: inner ++ [c]) = decoded (b' :: inner' ++ [c'])) :
    decoded inner = decoded inner' := by
  have hbytes := congrArg (·.toByteArray.data.toList) h
  simp only [bytes_decoded] at hbytes
  split_ifs at hbytes with hvalid hvalid' hvalid'
  · simp only [List.cons_append, List.cons.injEq] at hbytes
    rw [(List.append_inj' hbytes.2 rfl).1]
  · cases hbytes
  · cases hbytes
  · have hinner : ¬ (⟨inner.toArray⟩ : ByteArray).IsValidUTF8 :=
      fun hv => hvalid (isValidUTF8_quoted hb hc hv)
    have hinner' : ¬ (⟨inner'.toArray⟩ : ByteArray).IsValidUTF8 :=
      fun hv => hvalid' (isValidUTF8_quoted hb' hc' hv)
    rw [decoded_eq_empty hinner, decoded_eq_empty hinner']

/-- A token without its first and last byte. -/
theorem Token.Solid.text_eq {src : Source} {t : Token} (h : t.Solid src)
    (hquotes : t.span.start + 2 ≤ t.span.stop) :
      ∃ b c inner, b < 128 ∧ c < 128 ∧ src.text t.span = decoded (b :: inner ++ [c]) ∧
      src.text t.span.unquoted = decoded inner := by
  obtain ⟨b, hb, hfirst⟩ := h.first
  obtain ⟨c, hc, hlast⟩ := h.last
  obtain ⟨n, hn⟩ : ∃ n, t.span.stop = t.span.start + 1 + n + 1 :=
    ⟨t.span.stop - t.span.start - 2, by omega⟩
  refine ⟨b, c, (src.bytes.drop (t.span.start + 1)).take n, hfirst, hlast, ?_, ?_⟩
  · rw [text_eq_decoded h.nonempty.le h.fits, show t.span.stop - t.span.start = n + 1 + 1 by omega]
    obtain ⟨hlt, rfl⟩ := List.getElem?_eq_some_iff.mp hb
    rw [List.drop_eq_getElem_cons hlt, List.take_succ_cons, List.take_add_one, List.getElem?_drop,
      show t.span.start + 1 + n = t.span.stop - 1 by omega, hc]
    rfl
  · have hfits := h.fits
    rw [text_eq_decoded (by simp only [Span.unquoted]; omega) (by simp only [Span.unquoted]; omega)]
    simp only [Span.unquoted]
    rw [show t.span.stop - 1 - (t.span.start + 1) = n by omega]

/-- String literals that say the same with their quotes say the same without them. -/
theorem Twins.unquoted (h : Relaid src src') (ht : Twins src src' t t') (hkind : t.kind = .string) :
    src.text t.span.unquoted = src'.text t'.span.unquoted := by
  have hquoted : ∀ {src : Source} {t : Token}, t ∈ src.tokens → t.kind = .string →
      t.Solid src ∧ t.span.start + 2 ≤ t.span.stop := by
    intro src t hmem hkind
    obtain ⟨o, -, rfl⟩ := Token.mem_scanAll hmem
    exact ⟨Token.solid_next (by rw [hkind]; rfl) (by rw [hkind]; decide), Token.next_string hkind⟩
  obtain ⟨hsolid, hle⟩ := hquoted ht.mem hkind
  obtain ⟨hsolid', hle'⟩ := hquoted ht.symm.mem ((ht.kind h).symm.trans hkind)
  obtain ⟨b, c, inner, hb, hc, htext, hinner⟩ := hsolid.text_eq hle
  obtain ⟨b', c', inner', hb', hc', htext', hinner'⟩ := hsolid'.text_eq hle'
  rw [hinner, hinner']
  apply decoded_inner hb hc hb' hc'
  rw [← htext, ← htext']
  exact ht.text h

end MicroCompiler
