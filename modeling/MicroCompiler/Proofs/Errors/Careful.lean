import MicroCompiler.Proofs.Grammar.Acceptance.Text
import MicroCompiler.Proofs.Outline.Verbatim

/-! Productions that are careful with tokens. They do not consume a malformed one, so they never
look past the first of them, and what they report is either that token itself, in the words of the
scanner, or something before it. What they write down of a name or a literal is a token that they
have read. Sequences, attempts, alternatives and loops of careful productions are careful. -/

namespace MicroCompiler

/-- The first token that is malformed. -/
def Source.firstError? (src : Source) : Option Token := src.tokens.find? (·.kind.isError)

namespace Diagnostic

/-- The codes under which malformed tokens are reported. -/
def Code.malformed : List Code :=
  [.unterminatedString, .unexpectedCharacter, .newlineInString, .unknownEscape, .unknownDirective]

/-- The diagnostic is what the first malformed token reports, or it points before that token. If no
token is malformed, it does not say that one is. -/
structure Fair (src : Source) (d : Diagnostic) : Prop where
  error : ∀ t ∈ src.firstError?, d.offset < t.span.start ∨ ofToken? t src = some d
  clean : src.firstError? = none → d.code ∉ Code.malformed

variable {src : Source} {t : Token} {d e : Diagnostic} {code : Code}

theorem span_of_ofToken? (h : ofToken? t src = some d) : d.span = t.span := by
  unfold ofToken? at h
  split at h <;> cases h <;> rfl

theorem expected_offset (code : Code) (wanted : String) (t : Token) (src : Source) :
    (expected code wanted t src).offset = t.span.start := by
  unfold expected offset
  cases h : ofToken? t src with
  | none => rfl
  | some d => rw [Option.getD_some, span_of_ofToken? h]

theorem Fair.furthest (hd : d.Fair src) (he : e.Fair src) : (d.furthest e).Fair src := by
  unfold Diagnostic.furthest
  split_ifs
  · exact he
  · exact hd

end Diagnostic

namespace Grammar

open Ast (BinaryOp Node NodeId NodeKind Pool)
open Token (Cursor Kind)
open Production

variable {α β : Type} {src : Source} {st : State} {t : Token} {p : Production α} {Q : α → Prop}
  {R : β → Prop} {code : Diagnostic.Code} {kind : Kind} {f : α → Production β}
  {wanted : String} {id : NodeId}

/-! ### Up to the first malformed token -/

/-- The token is the first malformed one or stands before it. -/
structure Seen (src : Source) (t : Token) : Prop where
  mem : t ∈ src.tokens
  error : ∀ u ∈ src.firstError?, t = u ∨ t.span.start < u.span.start
  clean : src.firstError? = none → t.kind.isError = false

/-- No malformed token has been consumed, and the names and literals of the nodes are tokens. -/
structure Clear (src : Source) (st : State) : Prop where
  sound : st.cursor.Sound src
  behind : ∃ before, src.tokens = before ++ st.cursor.rest src ∧ ∀ u ∈ before,
    u.kind.isError = false
  pool : st.pool.Verbatim src

namespace Clear

theorem start (src : Source) (fileIndex : Nat) : Clear src ⟨.start, .empty fileIndex⟩ :=
  ⟨Cursor.sound_start src, ⟨[], rfl, by simp⟩, by simp [Pool.Verbatim, Pool.empty]⟩

section

variable (h : Clear src st)

include h

theorem stands : Stands src st (st.cursor.peek src).1 st.pool := ⟨h.sound, rfl, rfl⟩

theorem peek : Clear src { st with cursor := (st.cursor.peek src).2 } :=
  ⟨Cursor.sound_peek h.sound, by simpa using h.behind, h.pool⟩

theorem reset {q : Pool} (hq : q.Verbatim src) : Clear src ⟨.reset (st.cursor.peek src).1, q⟩ := by
  refine ⟨Cursor.sound_reset h.sound, ?_, hq⟩
  rw [Cursor.rest_reset h.sound]
  exact h.behind

theorem setPool {q : Pool} (hq : q.Verbatim src) : Clear src { st with pool := q } :=
  ⟨h.sound, h.behind, hq⟩

theorem eat (hkind : (st.cursor.peek src).1.kind.isError = false) :
    Clear src { st with cursor := (st.cursor.eat src).2 } := by
  refine ⟨Cursor.sound_eat _ _, ?_, h.pool⟩
  obtain ⟨before, htokens, hbefore⟩ := h.behind
  by_cases heof : (st.cursor.peek src).1.kind = .eof
  · rw [Cursor.rest_eat_eof h.sound heof]
    exact ⟨before, htokens, hbefore⟩
  · rw [Cursor.rest_eq, if_neg heof] at htokens
    refine ⟨before ++ [(st.cursor.peek src).1], by simpa using htokens, ?_⟩
    simpa [or_imp, forall_and] using ⟨hbefore, hkind⟩

/-- The tokens behind the next one start behind it. -/
theorem start_lt (hkind : (st.cursor.peek src).1.kind.isError = false)
    (heof : (st.cursor.peek src).1.kind ≠ .eof) {u : Token}
    (hu : u ∈ (st.cursor.eat src).2.rest src) :
    (st.cursor.peek src).1.span.start < u.span.start := by
  have hpos := (h.stands.solid hkind heof).nonempty
  obtain ⟨-, hoffset⟩ := Cursor.sound_peek h.sound (st.cursor.peek src).1
    (by unfold Cursor.peek; split <;> simp_all)
  have hrest : (st.cursor.eat src).2.rest src =
    Token.scanAll src.bytes (st.cursor.peek src).2.offset := rfl
  rw [hrest, hoffset] at hu
  obtain ⟨offset, hle, rfl⟩ := Token.mem_scanAll hu
  simp only [Token.next] at hle ⊢
  omega

theorem seen : Seen src (st.cursor.peek src).1 := by
  obtain ⟨before, htokens, hbefore⟩ := h.behind
  have hmem : (st.cursor.peek src).1 ∈ src.tokens := by
    rw [htokens, Cursor.rest_eq]
    split_ifs <;> simp
  have hskip : before.find? (·.kind.isError) = none := by simpa using hbefore
  have hfirst : src.firstError? = (st.cursor.rest src).find? (·.kind.isError) := by
    rw [Source.firstError?, htokens, List.find?_append, hskip, Option.none_or]
  rw [Cursor.rest_eq] at hfirst
  cases hkind : (st.cursor.peek src).1.kind.isError with
  | true =>
    have hfound : src.firstError? = some (st.cursor.peek src).1 := by
      rw [hfirst]
      split_ifs <;> simp [hkind]
    refine ⟨hmem, fun u hu => .inl ?_, fun hnone => ?_⟩
    · rw [hfound] at hu
      exact Option.some.inj hu
    · rw [hfound] at hnone
      cases hnone
  | false =>
    refine ⟨hmem, fun u hu => .inr ?_, fun _ => hkind⟩
    rw [hfirst] at hu
    split_ifs at hu with heof
    · simp [hkind] at hu
    · rw [List.find?_cons_of_neg (by simp [hkind])] at hu
      exact h.start_lt hkind heof (List.mem_of_find?_eq_some hu)

end

end Clear

/-! ### Diagnostics -/

theorem Seen.expected (h : Seen src t) (hcode : code ∉ Diagnostic.Code.malformed)
    (wanted : String) : (Diagnostic.expected code wanted t src).Fair src := by
  refine ⟨fun u hu => ?_, fun hnone => ?_⟩
  · rcases h.error u hu with rfl | hlt
    · have herror : t.kind.isError = true := by simpa using List.find?_some hu
      cases hd : Diagnostic.ofToken? t src with
      | none => rw [ofToken?_eq_none.mp hd] at herror; cases herror
      | some d => exact .inr (by rw [Diagnostic.expected, hd, Option.getD_some])
    · exact .inl (by rwa [Diagnostic.expected_offset])
  · rwa [Diagnostic.expected, ofToken?_eq_none.mpr (h.clean hnone), Option.getD_none]

/-- What is said of a token that is not malformed is fair. -/
theorem Seen.fair (h : Seen src t) (hkind : t.kind.isError = false)
    (hcode : code ∉ Diagnostic.Code.malformed) (message : String) :
    Diagnostic.Fair src ⟨code, t.span, message⟩ := by
  refine ⟨fun u hu => .inl ?_, fun _ => hcode⟩
  rcases h.error u hu with rfl | hlt
  · have herror : t.kind.isError = true := by simpa using List.find?_some hu
    rw [hkind] at herror
    cases herror
  · exact hlt

/-! ### Outcomes -/

/-- No malformed token has been consumed, a failure is fair, and a value is as said. -/
def Outcome.Fair (src : Source) (Q : α → Prop) : Outcome α → Prop
  | .ok a st => Q a ∧ Clear src st
  | .failed e st => Clear src st ∧ e.Fair src
  | .broken _ => True

/-- A production that consumes no malformed token and writes down nothing but tokens, whose failures
are fair and whose values are as said. -/
def CarefulFor (src : Source) (Q : α → Prop) (p : Production α) : Prop :=
  ∀ ⦃st : State⦄, Clear src st → (p src st).Fair src Q

/-- The same where a token is known to be next. -/
def CarefulAt (src : Source) (t : Token) (Q : α → Prop) (p : Production α) : Prop :=
  ∀ ⦃st : State⦄, Clear src st → (st.cursor.peek src).1 = t → (p src st).Fair src Q

/-- Nothing is said of the value. -/
abbrev Careful (src : Source) (p : Production α) : Prop := CarefulFor src (fun _ => True) p

/-- The second step starts where the first one has ended. -/
theorem Outcome.Fair.bind (h : (p src st).Fair src Q)
    (hf : ∀ a st', p src st = .ok a st' → Q a → Clear src st' → (f a src st').Fair src R) :
    ((p >>= f) src st).Fair src R := by
  simp only [Bind.bind, Production.bind]
  cases ho : p src st with
  | ok a st' =>
    rw [ho] at h
    exact hf a st' ho h.1 h.2
  | failed e st' =>
    rw [ho] at h
    exact h
  | broken f => trivial

theorem Outcome.Fair.mono {o : Outcome α} {Q' : α → Prop} (h : o.Fair src Q)
    (himp : ∀ a, Q a → Q' a) : o.Fair src Q' := by
  cases o with
  | ok a st' => exact ⟨himp a h.1, h.2⟩
  | failed e st' => exact h
  | broken f => trivial

/-- After a failure something else is tried. -/
theorem Outcome.Fair.rescue {o : Outcome α} (h : o.Fair src Q) {g : Diagnostic → State → Outcome α}
    (hg : ∀ e st', Clear src st' → e.Fair src → (g e st').Fair src Q) :
    (match o with | .failed e st' => g e st' | o => o).Fair src Q := by
  cases o with
  | ok a st' => exact h
  | failed e st' => exact hg e st' h.1 h.2
  | broken f => trivial

namespace CarefulAt

theorem attempt (h : CarefulAt src t Q p) : CarefulAt src t Q (attempt p) := by
  rintro st hst rfl
  have ho := h hst.peek hst.stands.peek.next
  simp only [Production.attempt]
  cases hp : p src { st with cursor := (st.cursor.peek src).2 } with
  | ok a st' =>
    rw [hp] at ho
    exact ho
  | failed e st' =>
    rw [hp] at ho
    exact ⟨hst.reset (ho.1.pool.rollback _), ho.2⟩
  | broken f => trivial

theorem bind (h : CarefulAt src t Q p) (hf : ∀ a, Q a → CarefulFor src R (f a)) :
    CarefulAt src t R (p >>= f) := fun _ hst hnext => (h hst hnext).bind fun a _ _ ha hst' =>
    hf a ha hst'

/-- The next token is consumed once it is known to be well formed. -/
theorem eat {f : Token → Production α} (hkind : t.kind = kind) (herror : kind.isError = false)
    (hf : CarefulFor src Q (f t)) : CarefulAt src t Q (eat >>= f) := by
  rintro st hst rfl
  exact hf (hst.eat (hkind ▸ herror))

end CarefulAt

namespace CarefulFor

theorem here (h : CarefulFor src Q p) : CarefulAt src t Q p := fun _ hst _ => h hst

theorem bind (h : CarefulFor src Q p) (hf : ∀ a, Q a → CarefulFor src R (f a)) :
    CarefulFor src R (p >>= f) :=
  fun _ hst => (h hst).bind fun a _ _ ha hst' => hf a ha hst'

theorem pure {a : α} (h : Q a) : CarefulFor src Q (pure a) := fun _ hst => ⟨h, hst⟩

theorem stalled : CarefulFor src Q (stalled : Production α) := fun _ _ => trivial

theorem fail {e : Diagnostic} (he : e.Fair src) : CarefulFor src Q (fail e : Production α) :=
  fun _ hst => ⟨hst, he⟩

theorem unexpected (ht : Seen src t) (hcode : code ∉ Diagnostic.Code.malformed) :
    CarefulFor src Q (unexpected code wanted t : Production α) :=
    fun _ hst => ⟨hst, ht.expected hcode wanted⟩

theorem attempt (h : CarefulFor src Q p) : CarefulFor src Q (attempt p) :=
  fun _ hst => CarefulAt.attempt h.here hst rfl

theorem orElse {ps : List (Production α)} (h : ∀ p ∈ ps, CarefulFor src Q p) {e : Diagnostic}
    (he : e.Fair src) : CarefulFor src Q (orElse e ps) := by
  induction ps generalizing e with
  | nil => exact fail he
  | cons p ps ih =>
    rw [List.forall_mem_cons] at h
    exact fun st hst => (h.1 hst).rescue fun e' st' hst' he' => ih h.2 (he.furthest he') hst'

theorem firstOf {ps : List (Production α)} (h : ∀ p' ∈ p :: ps, CarefulFor src Q p') :
    CarefulFor src Q (firstOf (p :: ps)) := by
  rw [List.forall_mem_cons] at h
  exact fun st hst => (h.1 hst).rescue fun e st' hst' he => orElse h.2 he hst'

theorem orUnexpected (h : CarefulFor src Q p) (ht : Seen src t)
    (hcode : code ∉ Diagnostic.Code.malformed) :
    CarefulFor src Q (orUnexpected code wanted t p) := by
  refine fun st hst => (h hst).rescue fun e st' hst' he => ?_
  split_ifs
  · exact ⟨hst', ht.expected hcode wanted⟩
  · exact ⟨hst', he⟩

/-! ### Reading tokens -/

theorem peek {f : Token → Production α} (hf : ∀ t, Seen src t → CarefulAt src t Q (f t)) :
    CarefulFor src Q (peek >>= f) :=
  fun _ hst => hf _ hst.seen hst.peek hst.stands.peek.next

theorem check {f : Bool → Production α}
    (hf : ∀ t, Seen src t → CarefulAt src t Q (f (t.kind == kind))) :
    CarefulFor src Q (check kind >>= f) := fun _ hst => hf _ hst.seen hst.peek hst.stands.peek.next

theorem expectAs (hcode : code ∉ Diagnostic.Code.malformed)
    (hkind : kind.isError = false) :
    CarefulFor src (fun t => Seen src t ∧ t.kind = kind) (expectAs code kind) := by
  refine peek fun t ht => ?_
  split_ifs with hfound
  · rintro st hst rfl
    exact ⟨⟨hst.seen, hfound⟩, hst.eat (by rw [hfound, hkind])⟩
  · exact (unexpected ht hcode).here

theorem expect {f : Token → Production α} (hkind : kind.isError = false)
    (hf : ∀ t, Seen src t → t.kind = kind → CarefulFor src Q (f t)) :
    CarefulFor src Q (expect kind >>= f) :=
  (expectAs (by decide) hkind).bind fun t ht => hf t ht.1 ht.2

theorem expectIdentifier : CarefulFor src (fun t => src.HasName t.span) expectIdentifier :=
  fun _ hst => (expectAs (by decide) rfl hst).mono fun t ht => ⟨t, ht.1.mem, ht.2, rfl⟩

/-- What follows depends on whether the token was there. -/
theorem eatIf {f : Option Token → Production α} (hkind : kind.isError = false)
    (hsome : ∀ t, Seen src t → t.kind = kind → CarefulFor src Q (f (some t)))
    (hnone : CarefulFor src Q (f none)) :
    CarefulFor src Q (Production.eatIf kind >>= f) := by
  have heat : Careful src (Production.eatIf kind) := by
    refine check fun t ht => ?_
    split_ifs with hfound
    · exact .eat (beq_iff_eq.mp hfound) hkind (pure trivial)
    · exact (pure trivial).here
  refine fun st hst => (heat hst).bind fun found st' ho _ hst' => ?_
  rcases ensures_eatIf hst.stands found st' ho with ⟨rfl, hfound, -⟩ | ⟨rfl, -⟩
  · exact hsome _ hst.seen hfound hst'
  · exact hnone hst'

/-! ### Writing nodes -/

theorem textOf {s : Span} : CarefulFor src (· = src.text s) (textOf s) := fun _ hst => ⟨rfl, hst⟩

theorem alloc {kind : NodeKind} {span : Span} (h : kind.Verbatim src) :
    Careful src (alloc kind span) :=
  fun _ hst => ⟨trivial, hst.setPool (hst.pool.alloc h span)⟩

theorem allocList {ids : List NodeId} : Careful src (allocList ids) :=
  fun _ hst => ⟨trivial, hst.setPool hst.pool⟩

theorem node : CarefulFor src (·.kind.Verbatim src) (node id) := by
  intro st hst
  simp only [Production.node]
  cases hn : st.pool.get (some id) with
  | ok n => exact ⟨hst.pool.get hn, hst⟩
  | error fault => trivial

theorem spanOf : Careful src (spanOf id) := node.bind fun _ _ => pure trivial

theorem update {f : Node → Node} (hf : ∀ n : Node, n.kind.Verbatim src → (f n).kind.Verbatim src) :
    Careful src (update id f) := by
  intro st hst
  simp only [Production.update]
  cases hq : st.pool.modify (some id) f with
  | ok q => exact ⟨trivial, hst.setPool (hst.pool.modify hf hq)⟩
  | error fault => trivial

theorem attach {left right : NodeId} {op : BinaryOp} : Careful src (attach left op right) := by
  intro st hst
  simp only [Grammar.attach]
  cases hq : st.pool.attachBinary left op right with
  | ok joined =>
    obtain ⟨⟨root, stop, q⟩, hattached, rfl⟩ := map_eq_ok.mp hq
    exact ⟨trivial, hst.setPool (hst.pool.attachAt hattached)⟩
  | error fault => trivial

/-! ### Loops -/

theorem manyUntil (h : CarefulFor src Q p) (stop : Kind) (rounds : Nat) :
    Careful src (manyUntil stop p rounds) := by
  induction rounds with
  | zero => exact stalled
  | succ rounds ih =>
    refine check fun t ht => ?_
    split_ifs
    · exact (pure trivial).here
    · exact (h.bind fun _ _ => ih.bind fun _ _ => pure trivial).here

theorem commaTail (h : CarefulFor src Q p) (rounds : Nat) :
    CarefulFor src (fun items => ∀ a ∈ items, Q a) (commaTail p rounds) := by
  induction rounds with
  | zero => exact stalled
  | succ rounds ih =>
    refine eatIf rfl (fun _ _ _ => ?_) (pure (by simp))
    exact h.bind fun a ha => ih.bind fun rest hrest => pure (List.forall_mem_cons.mpr ⟨ha, hrest⟩)

theorem commaSeparated (h : CarefulFor src Q p) (rounds : Nat) :
    CarefulFor src (fun items => ∀ a ∈ items, Q a) (commaSeparated p rounds) :=
  h.bind fun _ ha => (commaTail h rounds).bind fun _ hrest =>
  pure (List.forall_mem_cons.mpr ⟨ha, hrest⟩)

end CarefulFor

/-- The span of a node is looked up without a token being read. -/
theorem CarefulAt.spanOf {f : Span → Production α} (hf : ∀ s, CarefulAt src t Q (f s)) :
    CarefulAt src t Q (spanOf id >>= f) := by
  intro st hst hnext
  simp only [Production.spanOf, Production.node, Bind.bind, Production.bind]
  cases st.pool.get (some id) with
  | ok n => exact hf n.span hst hnext
  | error fault => trivial

/-- The loop ends in front of the token it looks for. -/
theorem ensures_manyUntil_next (stop : Kind) (rounds : Nat) :
    (manyUntil stop p rounds).Ensures src st fun _ st' => (st'.cursor.peek src).1.kind = stop := by
  induction rounds generalizing st with
  | zero => exact ensures_stalled
  | succ rounds ih =>
    have hcheck : (check stop).Ensures src st fun found st' =>
        found = ((st'.cursor.peek src).1.kind == stop) := by
      rintro _ _ ⟨⟩
      unfold Cursor.peek
      cases hahead : st.cursor.ahead <;> simp [hahead]
    refine hcheck.bind ?_
    rintro _ st₁ rfl
    split_ifs with hstop
    · exact ensures_pure (by simpa using hstop)
    · exact ensures_true.bind fun _ _ _ => ih.bind fun _ _ h => ensures_pure h

/-- After the loop, the token it looked for is consumed. -/
theorem CarefulFor.manyUntil_eat (hitem : CarefulFor src Q p) (rounds : Nat)
    {f : List α → Token → Production β} (hkind : kind.isError = false)
    (hf : ∀ items close, CarefulFor src R (f items close)) :
    CarefulFor src R (Production.manyUntil kind p rounds >>= fun items =>
      Production.eat >>= f items) := by
  refine fun st hst => (hitem.manyUntil kind rounds hst).bind fun items st' ho _ hst' => ?_
  have hnext := ensures_manyUntil_next kind rounds items st' ho
  exact CarefulAt.eat hnext hkind (hf items _) hst' rfl

end Grammar

end MicroCompiler
