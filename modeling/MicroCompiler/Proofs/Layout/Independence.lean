import MicroCompiler.Proofs.Layout.Statement

/-! The parser does not see the layout. Sources with the same tokens need not have the same size, so
the bounds on the number of steps differ; both runs are compared with the larger bound, under which
neither outcome changes. -/

namespace MicroCompiler.Grammar

open Ast (Node NodeId NodeKind Pool)
open Production

variable {src src' : Source} {p : Production NodeId} {fileIndex : Nat}

/-- The sources lead to the same tree, node by node, or to complaints that say the same of the same
tokens. -/
inductive SameResult (src src' : Source) : Except Failure Parsed → Except Failure Parsed → Prop
  | tree {root : NodeId} {pool pool' : Pool} : Pool.Related (Node.Alike src src') pool pool' →
    (∀ slot, pool.outline src slot = pool'.outline src' slot) →
      SameResult src src' (.ok ⟨pool, root⟩) (.ok ⟨pool', root⟩)
  | rejected {e e' : Diagnostic} : e.Alike src src' e' →
    SameResult src src' (.error (.rejected e)) (.error (.rejected e'))

theorem SameResult.of_related {root root' : NodeId} {pool pool' : Pool} (hroot : root = root')
    (h : Pool.Related (Node.Alike src src') pool pool') :
    SameResult src src' (.ok ⟨pool, root⟩) (.ok ⟨pool', root'⟩) := by
  rw [hroot]
  exact .tree h h.outline

/-! ### Enough steps -/

/-- The state before anything was read. -/
abbrev initial (fileIndex : Nat) : State := ⟨.start, .empty fileIndex⟩

theorem at_initial (src : Source) (fileIndex : Nat) :
    At src (initial fileIndex) (src.tokens.map (symbolOf src)) (.empty fileIndex) :=
  ⟨Token.Cursor.sound_start src, by rw [Token.Cursor.rest_start]; rfl, rfl⟩

theorem tokens_length_le (src : Source) : (src.tokens.map (symbolOf src)).length ≤ budget src := by
  rw [List.length_map]
  exact Token.scanAll_length_le src.bytes

theorem file_ne_broken (src : Source) (fileIndex : Nat) (fault : Fault) :
    file src.size (budget src) src (initial fileIndex) ≠ .broken fault := by
  intro hbroken
  have hsat := file_reads src.size (budget src) (at_initial src fileIndex) (tokens_length_le src)
  rwa [Production.Sat, hbroken] at hsat

theorem wholeExpression_ne_broken (src : Source) (fileIndex : Nat) (fault : Fault) :
    wholeExpression (budget src) src (initial fileIndex) ≠ .broken fault := by
  intro hbroken
  have hread := expression_reads (budget src) (at_initial src fileIndex) (tokens_length_le src)
  have hsat : (wholeExpression (budget src)).Sat src (initial fileIndex) (fun _ _ => True) (fun _ =>
      True) False := by
    refine hread.bind (fun _ _ => trivial) fun root st _ => ?_
    unfold Production.Sat
    simp only [expect, expectAs, peek, Bind.bind, Production.bind]
    split_ifs <;> trivial
  rwa [Production.Sat, hbroken] at hsat

/-- More steps do not change what a text leads to. -/
theorem Production.Below.eq_of_ne_broken {q : Production NodeId} {st : State} (h : p.Below q)
    (hne : ∀ fault, p src st ≠ .broken fault) : p src st = q src st := by
  rcases h src st with heq | ⟨fault, hbroken⟩
  · exact heq
  · exact absurd hbroken (hne fault)

/-- A run that is not broken gives a tree or a complaint. -/
theorem run_ok_or_rejected (hne : ∀ fault, p src (initial fileIndex) ≠ .broken fault) :
    (∃ parsed, run p src fileIndex = .ok parsed) ∨ ∃ d, run p src fileIndex =
    .error (.rejected d) := by
  unfold run
  cases ho : p src (initial fileIndex) with
  | ok root st => exact .inl ⟨_, rfl⟩
  | failed d st => exact .inr ⟨d, rfl⟩
  | broken fault => exact absurd ho (hne fault)

theorem wholeExpression_below {m n : Nat} (h : m ≤ n) :
    (wholeExpression m).Below (wholeExpression n) :=
  (expression_below h).andThen _

/-! ### Results -/

/-- The node of a file covers the whole source and not its tokens alone, so it is like the other one
but for its span. -/
theorem run_file_same (hrelaid : Relaid src src') (size size' rounds : Nat)
    (hne : ∀ fault, file size rounds src (initial fileIndex) ≠ .broken fault) :
    SameResult src src' (run (file size rounds) src fileIndex)
    (run (file size' rounds) src' fileIndex) := by
  have hitems := manyUntil_parallel hrelaid (topLevel_parallel hrelaid rounds) .eof rounds
    (Paired.start src src' fileIndex).peek
  simp only [run, file, attempt, Bind.bind, Production.bind] at hne ⊢
  generalize manyUntil .eof (topLevel rounds) rounds src _ = o at hitems hne ⊢
  generalize manyUntil .eof (topLevel rounds) rounds src' _ = o' at hitems ⊢
  cases hitems with
  | @ok items items' st st' hitems hst =>
    obtain rfl : items = items' := hitems
    obtain ⟨hrange, hlists⟩ := (hst.pools.mono fun _ _ hn => hn.toAlike).allocList (items.map some)
    have hkind : NodeKind.Alike (fun s s' => src.text s =
      src'.text s') (.file (st.pool.allocList (items.map some)).1)
        (.file (st'.pool.allocList (items.map some)).1) := by
      rw [hrange]
      exact .plain rfl
    obtain ⟨hid, hpools⟩ := hlists.alloc ⟨0, size⟩ ⟨0, size'⟩ ⟨hkind, rfl, rfl⟩
    exact .of_related hid hpools
  | failed he _ => exact .rejected he
  | broken fault _ => exact absurd rfl (hne fault)

theorem run_expression_same (hrelaid : Relaid src src') (rounds : Nat)
    (hne : ∀ fault, wholeExpression rounds src (initial fileIndex) ≠ .broken fault) :
    SameResult src src' (run (wholeExpression rounds) src fileIndex)
    (run (wholeExpression rounds) src' fileIndex) := by
  have hwhole := wholeExpression_parallel hrelaid rounds (Paired.start src src' fileIndex)
  unfold run
  generalize wholeExpression rounds src (initial fileIndex) = o at hwhole hne ⊢
  generalize wholeExpression rounds src' (initial fileIndex) = o' at hwhole ⊢
  cases hwhole with
  | ok hroot hst => exact .of_related hroot (hst.pools.mono fun _ _ hn => hn.toAlike)
  | failed he _ => exact .rejected he
  | broken fault _ => exact absurd rfl (hne fault)

/-- Sources whose tokens have the same kinds and texts, be they laid out as they may, lead to the
same result. -/
theorem parse_layout_independent {tokens tokens' : List Token} (h : Token.tokenize src = .ok tokens)
    (h' : Token.tokenize src' = .ok tokens')
    (hsame : tokens.map (fun t => (t.kind, t.text src)) = tokens'.map fun t =>
      (t.kind, t.text src')) (fileIndex : Nat) :
    SameResult src src' (parseFile src fileIndex) (parseFile src' fileIndex) ∧
      SameResult src src' (parseExpression src fileIndex) (parseExpression src' fileIndex) := by
  obtain ⟨rfl, hproper⟩ := tokenize_eq_ok.mp h
  obtain ⟨rfl, -⟩ := tokenize_eq_ok.mp h'
  have hrelaid : Relaid src src' := ⟨hproper, hsame⟩
  have hle := Nat.le_max_left (budget src) (budget src')
  have hle' := Nat.le_max_right (budget src) (budget src')
  have hne := file_ne_broken src fileIndex
  have hne' := wholeExpression_ne_broken src fileIndex
  have hfile := (file_below src.size hle).eq_of_ne_broken hne
  have hfile' := (file_below src'.size hle').eq_of_ne_broken (file_ne_broken src' fileIndex)
  have hexpr := (wholeExpression_below hle).eq_of_ne_broken hne'
  have hexpr' := (wholeExpression_below hle').eq_of_ne_broken
    (wholeExpression_ne_broken src' fileIndex)
  constructor
  · rw [parseFile, parseFile, run, run, hfile, hfile']
    exact run_file_same hrelaid _ _ _ (hfile ▸ hne)
  · rw [parseExpression, parseExpression, run, run, hexpr, hexpr']
    exact run_expression_same hrelaid _ (hexpr ▸ hne')

/-- A call on one line. -/
def tightCall : Source := .ofString "f(\"é\", a+1)"

/-- The same call on several lines, with a comment. -/
def looseCall : Source := .ofString "f ( // first\n  \"é\" ,\n  a + 1 )\n"

/-- The call is an expression and no file. -/
theorem parse_layout_independent_call :
    (∃ tokens tokens', Token.tokenize tightCall = .ok tokens ∧ Token.tokenize looseCall =
      .ok tokens' ∧ tokens.map (fun t => (t.kind, t.text tightCall)) = tokens'.map fun t =>
      (t.kind, t.text looseCall)) ∧
    (parseFile tightCall 0).toOption.isNone ∧ (parseExpression tightCall 0).toOption.isSome ∧
    SameResult tightCall looseCall (parseFile tightCall 0) (parseFile looseCall 0) ∧
    SameResult tightCall looseCall (parseExpression tightCall 0) (parseExpression looseCall 0) := by
  have htight : Token.tokenize tightCall = .ok tightCall.tokens :=
    tokenize_eq_ok.mpr ⟨rfl, by decide +kernel⟩
  have hloose : Token.tokenize looseCall = .ok looseCall.tokens :=
    tokenize_eq_ok.mpr ⟨rfl, by decide +kernel⟩
  have hsame : tightCall.tokens.map (fun t => (t.kind, t.text tightCall)) =
      looseCall.tokens.map fun t => (t.kind, t.text looseCall) := by decide +kernel
  exact ⟨⟨_, _, htight, hloose, hsame⟩, by decide +kernel, by decide +kernel,
    parse_layout_independent htight hloose hsame 0⟩

end MicroCompiler.Grammar
