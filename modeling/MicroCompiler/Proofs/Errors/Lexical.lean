import MicroCompiler.Proofs.Errors.Careful
import MicroCompiler.Proofs.Grammar.Growth.Statement
import MicroCompiler.Proofs.Grammar.Tree
import MicroCompiler.Proofs.Layout.Independence

/-! Malformed tokens in the way of the parser. Every production is careful with them, so a text that
cannot be scanned is rejected no later than at its first malformed token, and at that token with the
report of the scanner. A text that can be scanned is never said to have a malformed token. The names
and literals of a tree are tokens of the text. -/

namespace MicroCompiler.Grammar

open Ast (BinaryOp Lies NodeId NodeKind Slot)
open Token (Kind)
open Production

variable {src : Source} {st : State} {t : Token} {expr inner block : Production NodeId}
  {fileIndex : Nat}

/-! ### Types and expressions -/

theorem typeExpr_careful (depth : Nat) : Careful src (typeExpr depth) := by
  induction depth with
  | zero => exact .stalled
  | succ depth ih =>
    refine .attempt (.peek fun t ht => ?_)
    split
    next hkind =>
      exact .eat hkind rfl (ih.bind fun _ _ => .bind .spanOf fun _ _ => .alloc trivial)
    next hkind => exact .eat hkind rfl (.alloc ⟨t, ht.mem, hkind, rfl⟩)
    next => exact (CarefulFor.unexpected ht (by decide)).here

theorem atType_careful : Careful src atType := .peek fun _ _ => (CarefulFor.pure trivial).here

theorem number_careful (ht : Seen src t) (hkind : t.kind = .number) :
    CarefulFor src src.HasNumber (number t) := by
  refine CarefulFor.textOf.bind fun text htext => ?_
  split
  next value hvalue => exact .pure ⟨t, ht.mem, hkind, htext ▸ hvalue⟩
  next => exact .fail (ht.fair (by rw [hkind]; rfl) (by decide) _)

theorem primary_careful (hexpr : Careful src expr) : Careful src (primary expr) := by
  refine .attempt (.peek fun t ht => ?_)
  split
  next hkind => exact .eat hkind rfl (.alloc ⟨t, ht.mem, hkind, rfl⟩)
  next hkind =>
    exact .eat hkind rfl ((number_careful ht hkind).bind fun _ hvalue => .alloc hvalue)
  next hkind => exact .eat hkind rfl (.alloc ⟨t, ht.mem, hkind, rfl⟩)
  next hkind => exact .eat hkind rfl (.alloc trivial)
  next hkind =>
    refine .eat hkind rfl (hexpr.bind fun _ _ => .expect rfl fun _ _ _ => ?_)
    exact .bind (.update fun _ hn => hn) fun _ _ => .pure trivial
  next => exact (CarefulFor.unexpected ht (by decide)).here

theorem expressions_careful (hexpr : Careful src expr) (rounds : Nat) :
    Careful src (expressions expr rounds) :=
  .attempt (hexpr.bind fun _ _ => (hexpr.commaTail rounds).bind fun _ _ => .pure trivial)

theorem call_careful (hexpr : Careful src expr) (callee : NodeId) (rounds : Nat) :
    Careful src (call expr callee rounds) := by
  have harguments : Careful src (arguments expr rounds) := by
    refine .check fun t ht => ?_
    split_ifs
    · exact (CarefulFor.pure trivial).here
    · exact (expressions_careful hexpr rounds).here
  exact .attempt (.expect rfl fun _ _ _ => harguments.bind fun _ _ => .expect rfl fun _ _ _ =>
    .bind .allocList fun _ _ => .bind .spanOf fun _ _ => .alloc trivial)

theorem subscript_careful (hexpr : Careful src expr) (container : NodeId)
    (hkind : t.kind = .leftBracket) : CarefulAt src t (fun _ => True) (subscript expr container) :=
  .spanOf fun _ => .eat hkind rfl (hexpr.bind fun _ _ => .expect rfl fun _ _ _ =>
  .alloc trivial)

theorem selection_careful (operand : NodeId) (rounds : Nat) (hkind : t.kind = .dot) :
    CarefulAt src t (fun _ => True) (selection operand rounds) := by
  refine .spanOf fun _ => .eat hkind rfl (.eatIf rfl (fun _ _ _ => ?_) ?_)
  · exact (typeExpr_careful rounds).bind fun _ _ => .expect rfl fun _ _ _ => .alloc trivial
  · exact .bind .expectIdentifier fun _ hname => .alloc hname

theorem suffixes_careful (hexpr : Careful src expr) (operand : NodeId) (rounds : Nat) :
    Careful src (suffixes expr operand rounds) := by
  induction rounds generalizing operand with
  | zero => exact .stalled
  | succ rounds ih =>
    refine .peek fun t ht => ?_
    split
    next => exact ((call_careful hexpr operand _).bind fun joined _ => ih joined).here
    next hkind => exact (subscript_careful hexpr operand hkind).bind fun joined _ => ih joined
    next hkind => exact (selection_careful operand _ hkind).bind fun joined _ => ih joined
    next => exact (CarefulFor.pure trivial).here

theorem unary_careful (hexpr : Careful src expr) (rounds depth : Nat) :
    Careful src (unary expr rounds depth) := by
  induction depth with
  | zero => exact .stalled
  | succ depth ih =>
    refine .attempt (.peek fun t ht => ?_)
    split
    next =>
      exact ((primary_careful hexpr).bind fun operand _ =>
        suffixes_careful hexpr operand rounds).here
    next op hop =>
      exact .eat rfl (unaryToken_proper hop).1 (ih.bind fun _ _ => .bind .spanOf fun _ _ =>
        .alloc trivial)

theorem binaryToken_proper {kind : Kind} {op : BinaryOp} (h : BinaryOp.ofToken? kind = some op) :
    kind.isError = false := by
  rw [← BinaryOp.token_of_ofToken? h]
  cases op <;> rfl

theorem binaryTail_careful {operand : Production NodeId} (hoperand : Careful src operand)
    (left : NodeId) (rounds : Nat) : Careful src (binaryTail operand left rounds) := by
  induction rounds generalizing left with
  | zero => exact .stalled
  | succ rounds ih =>
    refine .peek fun t ht => ?_
    split
    next => exact (CarefulFor.pure trivial).here
    next op hop =>
      exact .eat rfl (binaryToken_proper hop) (hoperand.bind fun _ _ =>
        .bind .attach fun joined _ => ih joined)

theorem expression_careful (depth : Nat) : Careful src (expression depth) := by
  induction depth with
  | zero => exact .stalled
  | succ depth ih =>
    have hoperand := unary_careful ih (depth + 1) (depth + 1)
    exact .attempt (hoperand.bind fun left _ => binaryTail_careful hoperand left (depth + 1))

/-! ### Definitions -/

theorem optionalType_careful (rounds : Nat) : Careful src (optionalType rounds) := by
  refine atType_careful.bind fun found _ => ?_
  split_ifs
  · exact (typeExpr_careful rounds).bind fun _ _ => .pure trivial
  · exact .pure trivial

theorem initializers_careful (rounds : Nat) : Careful src (initializers rounds) :=
  .eatIf rfl (fun _ _ _ => expressions_careful (expression_careful rounds) rounds) (.pure trivial)

theorem definitionBody_careful (rounds : Nat) : Careful src (definitionBody rounds) := by
  refine .eatIf rfl (fun _ _ _ => ?_) (.peek fun colon hcolon => ?_)
  · exact (expressions_careful (expression_careful rounds) rounds).bind fun _ _ => .pure trivial
  · split_ifs with hkind
    · exact (CarefulFor.unexpected hcolon (by decide)).here
    · refine .eat (not_not.mp hkind) rfl ((optionalType_careful rounds).bind fun type _ =>
        (initializers_careful rounds).bind fun inits _ => ?_)
      split_ifs
      · exact .peek fun found hfound => (CarefulFor.unexpected hfound (by decide)).here
      · exact .pure trivial

/-- The initializers have been read, so they start before the next token and before every malformed
one. -/
theorem checkCount_fair {names : List Token} {inits : List NodeId} {lo : Nat} (hst : Clear src st)
    (hinits : ∀ id ∈ inits, Lies st.pool id lo (st.cursor.peek src).1.span.start) :
    (checkCount names inits src st).Fair src fun _ => True := by
  cases inits with
  | nil => exact ⟨trivial, hst⟩
  | cons first rest =>
    unfold checkCount
    split_ifs
    · exact ⟨trivial, hst⟩
    · refine (CarefulFor.spanOf hst).bind fun head st₁ ho _ hst₁ => ?_
      refine (CarefulFor.spanOf hst₁).bind fun last st₂ _ _ hst₂ => ?_
      obtain ⟨⟨n, hn, rfl⟩, -⟩ := ensures_spanOf hst.stands head st₁ ho
      have hspan := (hinits first (by simp)).span hn
      refine ⟨hst₂, fun u hu => .inl ?_, fun _ => by simp [Diagnostic.Code.malformed]⟩
      have hstart : (st.cursor.peek src).1.span.start ≤ u.span.start := by
        rcases hst.seen.error u hu with hnext | hlt
        · rw [hnext]
        · exact hlt.le
      simp only [Diagnostic.offset, Span.merge]
      omega

theorem variableStop_careful (name : Token) (type initializer : Slot) :
    Careful src (variableStop name type initializer) := by
  unfold variableStop
  split
  · exact .bind .spanOf fun _ _ => .pure trivial
  · exact .bind .spanOf fun _ _ => .pure trivial
  · exact .pure trivial

theorem allocVariables_careful (type : Slot) {names : List Token}
    (hnames : ∀ t ∈ names, src.HasName t.span) (inits : List NodeId) :
    Careful src (allocVariables type names inits) := by
  induction names generalizing inits with
  | nil => exact .pure trivial
  | cons name names ih =>
    rw [List.forall_mem_cons] at hnames
    exact (variableStop_careful _ _ _).bind fun _ _ => .bind (.alloc hnames.1) fun _ _ =>
      (ih hnames.2 _).bind fun _ _ => .pure trivial

theorem definition_careful (rounds : Nat) : Careful src (definition rounds) := by
  refine .attempt (.eatIf rfl (fun _ _ _ => ?_) ?_)
  all_goals
    refine (CarefulFor.expectIdentifier.commaSeparated rounds).bind fun names hnames => ?_
    refine fun st hst => (definitionBody_careful rounds hst).bind ?_
    rintro ⟨type, inits⟩ st₁ hbody - hst₁
    obtain ⟨t₁, q, h₁, hgrove, -⟩ := definitionBody_grows rounds hst.stands _ _ hbody
    obtain rfl := h₁.pool
    obtain rfl := h₁.next
    refine (checkCount_fair hst₁ fun id hid => hgrove.row.lies (List.mem_append_right _ hid)).bind
      fun _ st₂ _ _ hst₂ => ?_
    refine CarefulFor.expect rfl (fun _ _ _ => (allocVariables_careful type hnames inits).bind
      fun _ _ => .bind .allocList fun _ _ => .alloc ?_) hst₂
    trivial

/-! ### Declarations -/

theorem paramGroup_careful (rounds : Nat) : Careful src (paramGroup rounds) :=
  (CarefulFor.expectIdentifier.commaSeparated rounds).bind fun _ hnames => .expect rfl fun _ _ _ =>
    (typeExpr_careful rounds).bind fun type _ => allocVariables_careful type hnames []

theorem paramsTail_careful (rounds groups : Nat) : Careful src (paramsTail rounds groups) := by
  induction groups with
  | zero => exact .stalled
  | succ groups ih =>
    refine .eatIf rfl (fun dots hdots hkind => ?_)
      ((paramGroup_careful rounds).bind fun group _ => ?_)
    · exact .eatIf rfl (fun _ _ _ => .pure trivial)
        (.fail (hdots.fair (by rw [hkind]; rfl) (by decide) _))
    · exact .eatIf rfl (fun _ _ _ => ih.bind fun _ _ => .pure trivial) (.expect rfl fun _ _ _ =>
        .pure trivial)

theorem params_careful (rounds : Nat) : Careful src (params rounds) :=
  .eatIf rfl (fun _ _ _ => .pure trivial) (paramsTail_careful rounds rounds)

theorem returns_careful (rounds : Nat) : Careful src (returns rounds) := by
  refine .eatIf rfl (fun _ _ _ => .eatIf rfl (fun _ _ _ => .pure trivial) ?_)
    (atType_careful.bind fun found _ => ?_)
  · exact ((typeExpr_careful rounds).commaSeparated rounds).bind fun _ _ => .expect rfl fun _ _ _ =>
      .pure trivial
  · split_ifs
    · exact (typeExpr_careful rounds).bind fun _ _ => .pure trivial
    · exact .pure trivial

theorem body_careful (hblock : Careful src block) :
    CarefulFor src (fun body => ∀ s ∈ body.library, src.HasLiteral s) (body block) := by
  refine .eatIf rfl (fun _ _ _ => .eatIf rfl (fun library hlibrary hkind => ?_) ?_)
    (.peek fun t ht => ?_)
  · exact .expect rfl fun _ _ _ => .pure (by simpa using ⟨library, hlibrary.mem, hkind, rfl⟩)
  · exact .expect rfl fun _ _ _ => .pure (by simp)
  · split_ifs
    · exact (CarefulFor.unexpected ht (by decide)).here
    · exact (hblock.bind fun _ _ => .bind .spanOf fun _ _ => .pure (by simp)).here

theorem function_careful (hblock : Careful src block) (rounds : Nat) :
    Careful src (function block rounds) := by
  refine .attempt (.expect rfl fun _ _ _ => .expect rfl fun _ _ _ =>
    (params_careful rounds).bind fun _ _ =>
    (returns_careful rounds).bind fun _ _ => (body_careful hblock).bind fun _ hlibrary =>
    .bind .allocList fun _ _ =>
    .bind .allocList fun _ _ => ?_)
  exact .bind (.alloc ⟨by simp, hlibrary⟩) fun _ _ => .bind (.update fun _ hn => hn) fun _ _ =>
    .pure trivial

theorem struct_careful (rounds : Nat) : Careful src (struct rounds) := by
  refine .attempt (.expect rfl fun _ _ _ => .expect rfl fun _ _ _ =>
    (definition_careful rounds).manyUntil_eat rounds rfl fun members close =>
      .bind .allocList fun _ _ => .alloc ?_)
  exact fun s hs => absurd hs (by simp)

theorem declaration_careful (hblock : Careful src block) (rounds : Nat) :
    Careful src (declaration block rounds) := by
  have hvalue : ∀ p ∈ [struct rounds, function block rounds, expression rounds], Careful src p := by
    simpa using ⟨struct_careful rounds, function_careful hblock rounds, expression_careful rounds⟩
  refine .attempt (.bind .expectIdentifier fun name hname => .expect rfl fun _ _ _ =>
    (CarefulFor.firstOf hvalue).bind fun value _ => .bind .node fun n hn => ?_)
  split
  next kind hnamed =>
    exact .bind (.update fun _ _ => hn.named hname hnamed) fun _ _ => .pure trivial
  next => exact .expect rfl fun _ _ _ => .alloc hname

/-! ### Statements -/

theorem block_careful (hinner : Careful src inner) (rounds : Nat) :
    Careful src (Grammar.block inner rounds) :=
  .attempt (.expect rfl fun _ _ _ => hinner.manyUntil_eat rounds rfl fun _ _ =>
  .bind .allocList fun _ _ => .alloc trivial)

theorem ifStatement_careful (hinner : Careful src inner) (rounds : Nat) :
    Careful src (ifStatement inner rounds) := by
  have halternative : Careful src (alternative inner) :=
    .eatIf rfl (fun _ _ _ => hinner.bind fun _ _ => .pure trivial) (.pure trivial)
  exact .attempt (.expect rfl fun _ _ _ => (expression_careful rounds).bind fun _ _ =>
    hinner.bind fun _ _ =>
    halternative.bind fun _ _ => .bind .spanOf fun _ _ => .alloc trivial)

theorem whileStatement_careful (hinner : Careful src inner) (rounds : Nat) :
    Careful src (whileStatement inner rounds) :=
  .attempt (.expect rfl fun _ _ _ => (expression_careful rounds).bind fun _ _ =>
  hinner.bind fun _ _ =>
    .bind .spanOf fun _ _ => .alloc trivial)

theorem deferStatement_careful (hinner : Careful src inner) : Careful src (deferStatement inner) :=
  .attempt (.expect rfl fun _ _ _ => hinner.bind fun _ _ => .bind .spanOf fun _ _ => .alloc trivial)

theorem returnStatement_careful (rounds : Nat) : Careful src (returnStatement rounds) := by
  have hvalues : Careful src (returnValues rounds) := by
    refine .check fun t ht => ?_
    split_ifs
    · exact (CarefulFor.pure trivial).here
    · exact (expressions_careful (expression_careful rounds) rounds).here
  exact .attempt (.expect rfl fun _ _ _ => hvalues.bind fun _ _ => .expect rfl fun _ _ _ =>
    .bind .allocList fun _ _ => .alloc trivial)

theorem jumpStatement_careful {kind : NodeKind} {k : Kind} (hverbatim : kind.Verbatim src)
    (hkind : t.kind = k) (herror : k.isError = false) :
    CarefulAt src t (fun _ => True) (jumpStatement kind) :=
  .attempt (.eat hkind herror (.expect rfl fun _ _ _ => .alloc hverbatim))

theorem assignment_careful (rounds : Nat) : Careful src (assignment rounds) := by
  have hexprs : Careful src (expressions (expression rounds) rounds) :=
    expressions_careful (expression_careful rounds) rounds
  have hstart : ∀ ids otherwise, Careful src (startOf ids otherwise) := by
    intro ids otherwise
    unfold startOf
    split
    · exact .bind .spanOf fun _ _ => .pure trivial
    · exact .pure trivial
  exact .attempt (hexprs.bind fun _ _ => .expect rfl fun _ _ _ => hexprs.bind fun _ _ =>
    .expect rfl fun _ _ _ => (hstart _ _).bind fun _ _ => .bind .allocList fun _ _ =>
    .bind .allocList fun _ _ => .alloc trivial)

theorem expressionStatement_careful (rounds : Nat) : Careful src (expressionStatement rounds) :=
  .attempt ((expression_careful rounds).bind fun _ _ => .expect rfl fun _ _ _ =>
    .bind .spanOf fun _ _ =>
    .alloc trivial)

theorem statementOf_careful (hinner : Careful src inner) (rounds : Nat) :
    Careful src (statementOf inner rounds) := by
  have hsimple : ∀ p ∈ [declaration (Grammar.block inner rounds) rounds, definition rounds,
    assignment rounds,
      expressionStatement rounds], Careful src p := by
    simpa using ⟨declaration_careful (block_careful hinner rounds) rounds, definition_careful
      rounds, assignment_careful rounds, expressionStatement_careful rounds⟩
  refine .peek fun t ht => ?_
  split
  next => exact (block_careful hinner rounds).here
  next => exact (ifStatement_careful hinner rounds).here
  next => exact (whileStatement_careful hinner rounds).here
  next => exact (deferStatement_careful hinner).here
  next => exact (returnStatement_careful rounds).here
  next hkind => exact jumpStatement_careful trivial hkind rfl
  next hkind => exact jumpStatement_careful trivial hkind rfl
  next => exact (definition_careful rounds).here
  next => exact ((CarefulFor.firstOf hsimple).orUnexpected ht (by decide)).here

theorem statement_careful (depth : Nat) : Careful src (statement depth) := by
  induction depth with
  | zero => exact .stalled
  | succ depth ih => exact statementOf_careful ih (depth + 1)

/-! ### Files -/

theorem topLevel_careful (rounds : Nat) : Careful src (topLevel rounds) := by
  have hload : Careful src loadDirective :=
    .attempt (.expect rfl fun _ _ _ => .expect rfl fun path hpath hkind => .expect rfl fun _ _ _ =>
      .alloc ⟨path, hpath.mem, hkind, rfl⟩)
  have hitem : ∀ p ∈ [declaration (Grammar.block (statement rounds) rounds) rounds,
      definition rounds], Careful src p := by
    simpa using ⟨declaration_careful (block_careful (statement_careful rounds) rounds) rounds,
      definition_careful rounds⟩
  refine .peek fun t ht => ?_
  split
  · exact hload.here
  · exact ((CarefulFor.firstOf hitem).orUnexpected ht (by decide)).here

theorem file_careful (size rounds : Nat) : Careful src (file size rounds) :=
  .attempt (((topLevel_careful rounds).manyUntil .eof rounds).bind fun _ _ =>
    .bind .allocList fun _ _ => .alloc trivial)

/-! ### Texts -/

/-- The scanner reports the first malformed token. -/
theorem firstError?_of_tokenize {e : Diagnostic} (h : Token.tokenize src = .error e) :
    ∃ t ∈ src.firstError?, Diagnostic.ofToken? t src = some e := by
  unfold Token.tokenize at h
  unfold Source.firstError? Source.tokens
  generalize Token.scanAll src.bytes 0 = all at h
  induction all with
  | nil => cases h
  | cons t all ih =>
    rw [List.mapM_cons] at h
    cases hd : Diagnostic.ofToken? t src with
    | some d =>
      have herror : t.kind.isError = true := by
        rw [← Bool.not_eq_false]
        exact fun hproper => by simp [ofToken?_eq_none.mpr hproper] at hd
      rw [hd] at h
      obtain rfl : d = e := by simpa [bind, Except.bind] using h
      exact ⟨t, by simp [herror], hd⟩
    | none =>
      have hproper := ofToken?_eq_none.mp hd
      simp only [hd, bind, Except.bind] at h
      split at h
      next d hrest =>
        obtain rfl : d = e := Except.error.inj h
        obtain ⟨u, hu, he⟩ := ih hrest
        exact ⟨u, by simpa [hproper] using hu, he⟩
      next => cases h

theorem firstError?_eq_none {tokens : List Token} (h : Token.tokenize src = .ok tokens) :
    src.firstError? = none := by
  obtain ⟨rfl, hproper⟩ := tokenize_eq_ok.mp h
  simpa [Source.firstError?, Source.tokens] using hproper

/-- A text that is accepted has no malformed token. -/
theorem firstError?_of_parsed {parsed : Parsed} (h : parseFile src fileIndex = .ok parsed) :
    src.firstError? = none := by
  obtain ⟨kinds, hkinds, hfile⟩ := (parseFile_ok_iff src fileIndex).mp ⟨parsed, h⟩
  rw [Source.firstError?, List.find?_eq_none]
  intro t ht
  have hmem : symbolOf src t ∈ kinds ++ [.eof] := hkinds ▸ List.mem_map_of_mem ht
  have hproper : (symbolOf src t).isError = false := by
    rcases List.mem_append.mp hmem with hmem | hmem
    · exact hfile.proper _ hmem
    · rw [List.mem_singleton.mp hmem]
      rfl
  simp [(symbolOf_isError_iff.mp hproper).1]

theorem rejected_fair {d : Diagnostic} (h : parseFile src fileIndex = .error (.rejected d)) :
    d.Fair src := by
  have hfile := file_careful src.size (budget src) (Clear.start src fileIndex)
  unfold parseFile run at h
  split at h
  next => cases h
  next e st ho =>
    rw [ho] at hfile
    cases h
    exact hfile.2
  next => cases h

/-- The names and literals of a tree are tokens of the text. -/
theorem parseFile_verbatim {parsed : Parsed} (h : parseFile src fileIndex = .ok parsed) :
    parsed.pool.Verbatim src := by
  have hfile := file_careful src.size (budget src) (Clear.start src fileIndex)
  obtain ⟨st, ho, hpool⟩ := run_eq_ok h
  rw [ho] at hfile
  rw [← hpool]
  exact hfile.2.pool

/-- A text with a malformed token is rejected, at that token with the report of the scanner or
before it. A text without one is not rejected for a malformed token. -/
theorem parse_heeds_scanner (src : Source) (fileIndex : Nat) :
    (∀ e, Token.tokenize src = .error e → ∃ d, parseFile src fileIndex = .error (.rejected d) ∧
        d.offset ≤ e.span.start ∧ (d.offset = e.span.start → d = e)) ∧
      (∀ tokens, Token.tokenize src = .ok tokens → ∀ d, parseFile src fileIndex =
        .error (.rejected d) → d.code ∉ [.unterminatedString, .unexpectedCharacter,
          .newlineInString, .unknownEscape, .unknownDirective]) := by
  constructor
  · intro e herror
    obtain ⟨t, ht, he⟩ := firstError?_of_tokenize herror
    have hspan := Diagnostic.span_of_ofToken? he
    rcases run_ok_or_rejected (file_ne_broken src fileIndex) with ⟨parsed, hok⟩ | ⟨d, hd⟩
    · rw [firstError?_of_parsed hok] at ht
      cases ht
    · refine ⟨d, hd, ?_⟩
      rw [hspan]
      rcases (rejected_fair hd).error t ht with hlt | hreport
      · exact ⟨hlt.le, fun heq => absurd heq hlt.ne⟩
      · obtain rfl : d = e := Option.some.inj (hreport.symm.trans he)
        exact ⟨by rw [Diagnostic.offset, hspan], fun _ => rfl⟩
  · intro tokens htokens d hd
    exact (rejected_fair hd).clean (firstError?_eq_none htokens)

/-- The escape is malformed inside a string that begins before it, in the middle of a definition. -/
theorem parse_heeds_scanner_escape :
    Token.tokenize (.ofString "x := \"\\q\";") =
        .error ⟨.unknownEscape, ⟨6, 8⟩, "unknown escape sequence `\\q`"⟩ ∧
      ∃ d, parseFile (.ofString "x := \"\\q\";") 0 = .error (.rejected d) ∧ d.offset ≤ 6 ∧
        (d.offset = 6 → d = ⟨.unknownEscape, ⟨6, 8⟩, "unknown escape sequence `\\q`"⟩) := by
  have herror : Token.tokenize (.ofString "x := \"\\q\";") =
      .error ⟨.unknownEscape, ⟨6, 8⟩, "unknown escape sequence `\\q`"⟩ := by decide +kernel
  exact ⟨herror, (parse_heeds_scanner _ 0).1 _ herror⟩

end MicroCompiler.Grammar
