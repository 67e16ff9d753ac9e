import MicroCompiler.Proofs.Grammar.Phrase

/-! What the tokens of a phrase tell about it. The first token tells where an expression begins or
ends, the first mark tells declarations, definitions, assignments and expressions apart, and no
phrase has a malformed token. An `else` belongs to the last `if` that can take it; every statement
has a derivation of that kind. -/

namespace MicroCompiler.Grammar

open Ast (BinaryOp UnaryOp)
open Token (Kind)

variable {xs : List Kind} {P : List Kind → Prop}

/-! ### Tokens of expressions -/

/-- The tokens that tell statements without a keyword apart. -/
def isMark : Kind → Bool
  | .colonColon | .colonEqual | .colon | .equal | .semicolon | .kwVar => true
  | _ => false

/-- A sequence without marks and without malformed tokens. -/
def Unmarked (xs : List Kind) : Prop := ∀ k ∈ xs, isMark k = false ∧ k.isError = false

@[simp] theorem unmarked_nil : Unmarked [] := by simp [Unmarked]

@[simp] theorem unmarked_cons {k : Kind} :
    Unmarked (k :: xs) ↔ (isMark k = false ∧ k.isError = false) ∧ Unmarked xs := by simp [Unmarked]

@[simp] theorem unmarked_append {xs ys : List Kind} :
    Unmarked (xs ++ ys) ↔ Unmarked xs ∧ Unmarked ys := by
  simp only [Unmarked, List.mem_append]
  exact ⟨fun h => ⟨fun k hk => h k (.inl hk), fun k hk => h k (.inr hk)⟩, fun h k hk =>
    hk.elim (h.1 k) (h.2 k)⟩

theorem unaryToken_unmarked (op : UnaryOp) :
    isMark op.token = false ∧ op.token.isError = false := by
  cases op <;> decide

theorem binaryToken_unmarked (op : BinaryOp) :
    isMark op.token = false ∧ op.token.isError = false := by
  cases op <;> decide

theorem unmarked_of_isAtom : ∀ k, isAtom k → isMark k = false ∧ k.isError = false := by
  intro k
  cases k <;> decide

theorem IsType.unmarked (h : IsType xs) : Unmarked xs := by
  induction h with
  | name => simp [isMark, Kind.isError]
  | pointer _ ih => simpa [isMark, Kind.isError] using ih

theorem CommaSeparated.unmarked {n : Nat} (h : CommaSeparated P n xs)
    (hP : ∀ ys, P ys → Unmarked ys) : Unmarked xs := by
  induction h with
  | one h => exact hP _ h
  | more h _ ih => simpa [isMark, Kind.isError] using ⟨hP _ h, ih⟩

theorem IsNames.unmarked {n : Nat} (h : IsNames n xs) : Unmarked xs := by
  refine CommaSeparated.unmarked h ?_
  rintro _ rfl
  simp [isMark, Kind.isError]

theorem IsExpr.unmarked {part : ExprPart} (h : IsExpr part xs) : Unmarked xs := by
  induction h with
  | operand op _ _ ih ih' => simpa [ih] using ⟨binaryToken_unmarked op, ih'⟩
  | prefixed op _ ih => simpa [ih] using unaryToken_unmarked op
  | @atom k hk => simpa using unmarked_of_isAtom k hk
  | cast h => simpa [isMark, Kind.isError] using h.unmarked
  | _ => simp_all [isMark, Kind.isError]

/-! ### The first mark -/

/-- The first mark of a sequence. -/
def firstMark (xs : List Kind) : Option Kind := xs.find? isMark

theorem firstMark_append {xs ys : List Kind} (h : Unmarked xs) :
    firstMark (xs ++ ys) = firstMark ys := by
  have hnone : xs.find? isMark = none := List.find?_eq_none.mpr fun k hk => by simp [(h k hk).1]
  simp [firstMark, hnone]

theorem firstMark_cons {k : Kind} (h : isMark k) : firstMark (k :: xs) = some k := by
  simp [firstMark, h]

theorem IsStmt.firstMark_declaration (h : IsStmt .declaration xs) (ys : List Kind) :
    firstMark (xs ++ ys) = some .colonColon := by
  cases h <;> rfl

theorem IsDefinition.firstMark (h : IsDefinition xs) (ys : List Kind) :
    firstMark (xs ++ ys) ∈ [some .kwVar, some .colon, some .colonEqual] := by
  obtain ⟨rfl | rfl, hnames, hbody⟩ := h
  · rw [List.nil_append, List.append_assoc, List.append_assoc, firstMark_append hnames.unmarked]
    cases hbody <;> simp [Grammar.firstMark, isMark]
  · simp [Grammar.firstMark, isMark]

theorem firstMark_exprs {part : ExprPart} {xs ys : List Kind} {k : Kind} (h : IsExpr part xs)
    (hk : isMark k) : firstMark (xs ++ k :: ys) = some k := by
  rw [firstMark_append h.unmarked, firstMark_cons hk]

/-! ### First tokens -/

/-- The first token is one of those. -/
def Begins (starts : Kind → Bool) (xs : List Kind) : Prop := ∃ k ys, xs = k :: ys ∧ starts k

theorem Begins.append {starts : Kind → Bool} (h : Begins starts xs) (ys : List Kind) :
    Begins starts (xs ++ ys) := by
  obtain ⟨k, zs, rfl, hk⟩ := h
  exact ⟨k, zs ++ ys, rfl, hk⟩

theorem Begins.mono {starts starts' : Kind → Bool} (h : Begins starts xs)
    (himp : ∀ k, starts k → starts' k) : Begins starts' xs := by
  obtain ⟨k, zs, rfl, hk⟩ := h
  exact ⟨k, zs, rfl, himp k hk⟩

def startsType : Kind → Bool
  | .star | .identifier => true
  | _ => false

def startsExpr : Kind → Bool
  | .identifier | .number | .string | .kwNil | .leftParen | .plus | .minus | .ampersand | .star |
      .tilde | .bang => true
  | _ => false

def startsStmt : Kind → Bool
  | .leftBrace | .kwIf | .kwWhile | .kwDefer | .kwReturn | .kwBreak | .kwContinue | .kwVar => true
  | k => startsExpr k

theorem startsType_iff (k : Kind) : startsType k ↔ k = .star ∨ k = .identifier := by
  cases k <;> decide

theorem startsExpr_of_isAtom : ∀ k, isAtom k → startsExpr k := by
  intro k
  cases k <;> decide

/-- What begins an expression begins a statement, and it is no keyword that announces one. -/
theorem startsStmt_of_startsExpr :
    ∀ k, startsExpr k → startsStmt k ∧ k ∉ [Kind.kwIf, Kind.kwWhile, Kind.kwDefer] := by
  intro k
  cases k <;> decide

theorem IsType.begins (h : IsType xs) : Begins startsType xs := by
  cases h with
  | name => exact ⟨_, _, rfl, rfl⟩
  | pointer => exact ⟨_, _, rfl, rfl⟩

theorem CommaSeparated.begins {starts : Kind → Bool} {n : Nat}
    (h : CommaSeparated P n xs) (hP : ∀ ys, P ys → Begins starts ys) : Begins starts xs := by
  cases h with
  | one h => exact hP _ h
  | more h _ => exact (hP _ h).append _

theorem IsNames.begins {n : Nat} (h : IsNames n xs) : Begins (· == .identifier) xs := by
  refine CommaSeparated.begins h ?_
  rintro _ rfl
  exact ⟨_, _, rfl, rfl⟩

/-- Whether the phrases of a nonterminal follow on others. -/
def ExprPart.follows : ExprPart → Bool
  | .operands | .suffix | .suffixes => true
  | _ => false

theorem IsExpr.begins {part : ExprPart} (h : IsExpr part xs) (hpart : part.follows = false) :
    Begins startsExpr xs := by
  induction h with
  | expr _ _ ih => exact (ih rfl).append _
  | prefixed op => exact ⟨_, _, rfl, by cases op <;> rfl⟩
  | postfixed _ _ ih => exact (ih rfl).append _
  | @atom k hk => exact ⟨k, [], rfl, startsExpr_of_isAtom k hk⟩
  | parens => exact ⟨_, _, rfl, rfl⟩
  | oneExpr _ ih => exact ih rfl
  | moreExprs _ _ ih => exact (ih rfl).append _
  | _ => simp [ExprPart.follows] at hpart

theorem IsDefinition.begins (h : IsDefinition xs) :
    ∃ k ys, xs = k :: ys ∧ (k = .kwVar ∨ k = .identifier) := by
  obtain ⟨rfl | rfl, hnames, -⟩ := h
  · obtain ⟨k, ys, rfl, hk⟩ := hnames.begins
    exact ⟨k, _, rfl, .inr (by simpa using hk)⟩
  · exact ⟨_, _, rfl, .inl rfl⟩

theorem IsStmt.begins (h : IsStmt .statement xs) : Begins startsStmt xs := by
  have hexpr (k : Kind) (hk : startsExpr k) : startsStmt k := (startsStmt_of_startsExpr k hk).1
  cases h with
  | nested h =>
    cases h
    exact ⟨_, _, rfl, rfl⟩
  | declared h => cases h <;> exact ⟨_, _, rfl, rfl⟩
  | defined h =>
    obtain ⟨k, ys, rfl, rfl | rfl⟩ := h.begins <;> exact ⟨_, _, rfl, rfl⟩
  | assigned h => exact (((h.begins rfl).mono hexpr).append _).append _
  | evaluated h => exact ((h.begins rfl).mono hexpr).append _
  | _ => exact ⟨_, _, rfl, rfl⟩

/-! ### No malformed tokens -/

/-- A sequence without malformed tokens. -/
def Proper (xs : List Kind) : Prop := ∀ k ∈ xs, k.isError = false

@[simp] theorem proper_nil : Proper [] := by simp [Proper]

@[simp] theorem proper_cons {k : Kind} : Proper (k :: xs) ↔ k.isError = false ∧ Proper xs := by
  simp [Proper]

@[simp] theorem proper_append {xs ys : List Kind} : Proper (xs ++ ys) ↔ Proper xs ∧ Proper ys := by
  simp only [Proper, List.mem_append]
  exact ⟨fun h => ⟨fun k hk => h k (.inl hk), fun k hk => h k (.inr hk)⟩, fun h k hk =>
    hk.elim (h.1 k) (h.2 k)⟩

theorem Unmarked.proper (h : Unmarked xs) : Proper xs := fun k hk => (h k hk).2

theorem IsExpr.proper {part : ExprPart} (h : IsExpr part xs) : Proper xs := h.unmarked.proper

theorem IsType.proper (h : IsType xs) : Proper xs := h.unmarked.proper

theorem CommaSeparated.proper {n : Nat} (h : CommaSeparated P n xs) (hP : ∀ ys, P ys → Proper ys) :
    Proper xs := by
  induction h with
  | one h => exact hP _ h
  | more h _ ih => simpa [Kind.isError] using ⟨hP _ h, ih⟩

theorem Repeated.proper (h : Repeated P xs) (hP : ∀ ys, P ys → Proper ys) : Proper xs := by
  induction h with
  | none => simp
  | more h _ ih => simpa using ⟨hP _ h, ih⟩

theorem IsDefinition.proper (h : IsDefinition xs) : Proper xs := by
  obtain ⟨hkw, hnames, hbody⟩ := h
  simp only [proper_append, proper_cons, proper_nil, and_true]
  refine ⟨⟨⟨?_, hnames.unmarked.proper⟩, ?_⟩, rfl⟩
  · rcases hkw with rfl | rfl <;> simp [Kind.isError]
  · cases hbody with
    | inferred h | typed h => simpa [Kind.isError] using h.proper
    | initialized h hinits =>
      rcases h with rfl | h
      · simpa [Kind.isError] using hinits.proper
      · simpa [Kind.isError] using ⟨h.proper, hinits.proper⟩

theorem IsParams.proper (h : IsParams xs) : Proper xs := by
  have hgroup (ys : List Kind) (h : IsGroup ys) : Proper ys := by
    obtain ⟨hnames, htype⟩ := h
    simpa [Kind.isError] using ⟨hnames.unmarked.proper, htype.proper⟩
  cases h with
  | none => simp
  | groups h => exact h.proper hgroup
  | variadic h => simpa [Kind.isError] using h.proper hgroup
  | ellipsis => simp [Kind.isError]

theorem IsReturns.proper (h : Optional IsReturns xs) : Proper xs := by
  rcases h with rfl | h
  · simp
  cases h with
  | one h => exact h.proper
  | none => simp [Kind.isError]
  | list h => simpa [Kind.isError] using h.proper fun _ => IsType.proper

theorem IsStmt.proper {part : StmtPart} (h : IsStmt part xs) : Proper xs := by
  induction h with
  | struct h =>
    obtain ⟨h⟩ := h
    simpa [Kind.isError] using h.proper fun _ => IsDefinition.proper
  | const h => simpa [Kind.isError] using h.proper
  | body hparams hreturns _ ih =>
    simpa [Kind.isError] using ⟨hparams.proper, IsReturns.proper hreturns, ih⟩
  | foreign hparams hreturns hlib =>
    have : Proper _ := hparams.proper
    rcases hlib with rfl | rfl <;> simpa [Kind.isError] using ⟨this, IsReturns.proper hreturns⟩
  | ifThen hc _ _ ih => simpa [Kind.isError] using ⟨hc.proper, ih⟩
  | ifElse hc _ _ _ ih ih' => simpa [Kind.isError] using ⟨hc.proper, ih, ih'⟩
  | whileDo hc _ _ ih => simpa [Kind.isError] using ⟨hc.proper, ih⟩
  | returnValues h => simpa [Kind.isError] using h.proper
  | defined h => exact h.proper
  | assigned h h' => simpa [Kind.isError] using ⟨h.proper, h'.proper⟩
  | evaluated h => simpa [Kind.isError] using h.proper
  | _ => simp_all [Kind.isError]

theorem IsFile.proper (h : IsFile xs) : Proper xs := by
  refine Repeated.proper h ?_
  intro ys h
  cases h with
  | load => simp [Kind.isError]
  | declared h => exact h.proper
  | defined h => exact h.proper

/-! ### Whose `else` it is -/

/-- Statements in which every `else` belongs to the last `if` that can take it. An open statement
ends with an `if` that could take another `else`. -/
inductive Tied : Bool → List Kind → Prop
  | plain {xs : List Kind} (h : IsStmt .statement xs) (hhead : ∀ k ∈ xs.head?, k ∉ [Kind.kwIf,
    Kind.kwWhile, Kind.kwDefer]) : Tied false xs
  | ifThen {isOpen : Bool} {xs ys : List Kind} (condition : IsExpr .expr xs) (h : Tied isOpen ys)
    (apart : StandsApart ys) : Tied true (.kwIf :: xs ++ ys)
  | ifElse {isOpen : Bool} {xs ys zs : List Kind} (condition : IsExpr .expr xs) (h : Tied false ys)
    (apart : StandsApart ys) (alternative : Tied isOpen zs) :
    Tied isOpen (.kwIf :: xs ++ ys ++ .kwElse :: zs)
  | whileDo {isOpen : Bool} {xs ys : List Kind} (condition : IsExpr .expr xs) (h : Tied isOpen ys)
    (apart : StandsApart ys) : Tied isOpen (.kwWhile :: xs ++ ys)
  | deferred {isOpen : Bool} {xs : List Kind} (h : Tied isOpen xs) : Tied isOpen (.kwDefer :: xs)

theorem StandsApart.append_else {xs zs : List Kind} (h : StandsApart xs) :
    StandsApart (xs ++ .kwElse :: zs) := by
  cases xs with
  | nil => simp [StandsApart]
  | cons k xs => exact h

/-- An open statement takes the `else` that follows. -/
theorem Tied.takeElse {isOpen isOpen' : Bool} {xs zs : List Kind} (h : Tied isOpen xs)
    (hopen : isOpen = true) (hzs : Tied isOpen' zs) :
    ∃ isOpen'', Tied isOpen'' (xs ++ .kwElse :: zs) := by
  induction h with
  | plain => simp at hopen
  | @ifThen inner xs ys hc hys happart ih =>
    cases inner with
    | true =>
      obtain ⟨_, hrest⟩ := ih rfl
      exact ⟨true, by simpa using Tied.ifThen hc hrest happart.append_else⟩
    | false => exact ⟨isOpen', .ifElse hc hys happart hzs⟩
  | ifElse hc hys happart _ _ ih =>
    obtain ⟨b, hrest⟩ := ih hopen
    exact ⟨b, by simpa using Tied.ifElse hc hys happart hrest⟩
  | whileDo hc _ happart ih =>
    obtain ⟨b, hrest⟩ := ih hopen
    exact ⟨b, by simpa using Tied.whileDo hc hrest happart.append_else⟩
  | deferred _ ih =>
    obtain ⟨b, hrest⟩ := ih hopen
    exact ⟨b, .deferred hrest⟩

theorem IsStmt.tied {part : StmtPart} (h : IsStmt part xs) (hpart : part = .statement) :
    ∃ isOpen, Tied isOpen xs := by
  have hplain {xs : List Kind} (h : IsStmt .statement xs)
      (hstarts : Begins (fun k => decide (k ∉ [Kind.kwIf, Kind.kwWhile, Kind.kwDefer])) xs) :
      ∃ isOpen, Tied isOpen xs := by
    obtain ⟨k, ys, rfl, hk⟩ := hstarts
    exact ⟨false, .plain h (by simpa using hk)⟩
  have hexpr (k : Kind) (hk : startsExpr k) : decide (k ∉ [Kind.kwIf, Kind.kwWhile,
      Kind.kwDefer]) := by
    simpa using (startsStmt_of_startsExpr k hk).2
  induction h with
  | ifThen hc h happart ih =>
    obtain ⟨_, hys⟩ := ih rfl
    exact ⟨true, .ifThen hc hys happart⟩
  | ifElse hc h happart _ ih ih' =>
    obtain ⟨b, hys⟩ := ih rfl
    obtain ⟨c, hzs⟩ := ih' rfl
    cases b with
    | false => exact ⟨c, .ifElse hc hys happart hzs⟩
    | true =>
      obtain ⟨_, hrest⟩ := hys.takeElse rfl hzs
      exact ⟨true, by simpa using Tied.ifThen hc hrest happart.append_else⟩
  | whileDo hc h happart ih =>
    obtain ⟨b, hys⟩ := ih rfl
    exact ⟨b, .whileDo hc hys happart⟩
  | deferred _ ih =>
    obtain ⟨b, hxs⟩ := ih rfl
    exact ⟨b, .deferred hxs⟩
  | nested h =>
    refine hplain (.nested h) ?_
    cases h
    exact ⟨_, _, rfl, rfl⟩
  | declared h =>
    refine hplain (.declared h) ?_
    cases h <;> exact ⟨_, _, rfl, rfl⟩
  | defined h =>
    refine hplain (.defined h) ?_
    obtain ⟨k, ys, rfl, rfl | rfl⟩ := h.begins <;> exact ⟨_, _, rfl, rfl⟩
  | assigned h h' => exact hplain (.assigned h h') ((((h.begins rfl).mono hexpr).append _).append _)
  | evaluated h => exact hplain (.evaluated h) (((h.begins rfl).mono hexpr).append _)
  | returnNone => exact hplain .returnNone ⟨_, _, rfl, rfl⟩
  | returnValues h => exact hplain (.returnValues h) ⟨_, _, rfl, rfl⟩
  | leaveLoop => exact hplain .leaveLoop ⟨_, _, rfl, rfl⟩
  | nextRound => exact hplain .nextRound ⟨_, _, rfl, rfl⟩
  | _ => simp at hpart

theorem Tied.begins {isOpen : Bool} (h : Tied isOpen xs) : Begins startsStmt xs := by
  cases h with
  | plain h => exact h.begins
  | _ => exact ⟨_, _, rfl, rfl⟩

end MicroCompiler.Grammar
