import MicroCompiler.Grammar.File
import MicroCompiler.Proofs.Ast.Tree
import MicroCompiler.Proofs.Grammar.Growth.Statement
import MicroCompiler.Proofs.Results

/-! What the parser returns is a tree. Its nodes are pieces of the source that nest: ids give no
order, since an operator that is read later may come between an older operator and its operand, but
the spans do. -/

namespace MicroCompiler

theorem Source.Cuts.isValid {text : String} {offset : Nat}
    (h : (Source.ofString text).Cuts offset) : (⟨offset⟩ : String.Pos.Raw).IsValid text := by
  rcases h with rfl | rfl | h
  · exact String.Pos.Raw.isValid_zero
  · exact String.Pos.Raw.isValid_rawEndPos
  · exact h.isValid

namespace Grammar

open Ast (Nested Rooted)
open Production

variable {src : Source} {fileIndex : Nat} {parsed : Parsed}

theorem run_eq_ok {p : Production Ast.NodeId} (h : run p src fileIndex = .ok parsed) :
    ∃ st, p src ⟨.start, .empty fileIndex⟩ = .ok parsed.root st ∧ st.pool = parsed.pool := by
  unfold run at h
  split at h
  next root st hp =>
    obtain rfl := Except.ok.inj h
    exact ⟨st, hp, rfl⟩
  next => cases h
  next => cases h

theorem parseFile_rooted (h : parseFile src fileIndex = .ok parsed) :
    Rooted src (.empty fileIndex) parsed.pool parsed.root := by
  obtain ⟨st, hfile, hpool⟩ := run_eq_ok h
  have hensures : (file src.size (budget src)).Ensures src ⟨.start, .empty fileIndex⟩
      fun root st' => Rooted src (.empty fileIndex) st'.pool root := by
    refine ensures_attempt (.start src _) fun st₀ h₀ => ?_
    refine (manyUntil_grows (topLevel_yields _) .eof _ h₀).bind ?_
    rintro declarations st₁ ⟨t₁, q, h₁, hgrove, -⟩
    refine (ensures_allocList h₁).bind ?_
    rintro range st₂ ⟨rfl, h₂⟩
    refine (ensures_alloc h₂).mono ?_
    rintro root st₃ ⟨rfl, h₃⟩
    rw [h₃.pool]
    exact hgrove.forest.rooted_file rfl rfl
  rw [← hpool]
  exact hensures _ _ hfile

theorem parseExpression_rooted (h : parseExpression src fileIndex = .ok parsed) :
    Rooted src (.empty fileIndex) parsed.pool parsed.root := by
  obtain ⟨st, hwhole, hpool⟩ := run_eq_ok h
  have hensures : (wholeExpression (budget src)).Ensures src ⟨.start, .empty fileIndex⟩
      fun root st' => Rooted src (.empty fileIndex) st'.pool root := by
    refine (expression_yields _ (.start src _)).bind ?_
    rintro root st₁ ⟨t₁, q, h₁, hgrove⟩
    refine (ensures_expectAs h₁).bind ?_
    rintro _ st₂ ⟨-, -, t₂, -, h₂⟩
    apply ensures_pure
    rw [h₂.pool]
    exact hgrove.forest.rooted rfl rfl
  rw [← hpool]
  exact hensures _ _ hwhole

/-- What the parser returns is a tree, and every subtree has an outline. -/
theorem parsed_isTree (h : parseFile src fileIndex = .ok parsed ∨ parseExpression src fileIndex =
      .ok parsed) :
    parsed.pool.IsTree parsed.root ∧
      ∀ id : Ast.NodeId, id.index < parsed.pool.size → ∃ text,
      parsed.pool.outline src (some id) = .ok text := by
  have hrooted : Rooted src (.empty fileIndex) parsed.pool parsed.root :=
    h.elim parseFile_rooted parseExpression_rooted
  exact ⟨hrooted.isTree, fun id hid => hrooted.isTree.outline_ok hid⟩

/-- Two variables share a pointer type, and the second operator comes between the first one and its
operand. -/
theorem parsed_isTree_group : ∃ parsed, parseFile (.ofString "a, b: *int = x + y * f(1), 2;") 0 =
    .ok parsed ∧ parsed.pool.size = 14 ∧ parsed.pool.IsTree parsed.root ∧ ∀ id : Ast.NodeId,
      id.index < parsed.pool.size → ∃ text,
      parsed.pool.outline (.ofString "a, b: *int = x + y * f(1), 2;") (some id) = .ok text := by
  have hsize : (parseFile (.ofString "a, b: *int = x + y * f(1), 2;") 0).toOption.map
      (·.pool.size) = some 14 := by
    decide +kernel
  obtain ⟨parsed, hparsed, hnodes⟩ := Option.map_eq_some_iff.mp hsize
  rw [toOption_eq_some] at hparsed
  exact ⟨parsed, hparsed, hnodes, parsed_isTree (.inl hparsed)⟩

/-- Spans nest, and no span that a node covers cuts a character. -/
theorem parsed_nested {text : String} (h : parseFile (.ofString text) fileIndex = .ok parsed ∨
      parseExpression (.ofString text) fileIndex = .ok parsed) :
    ∀ n ∈ parsed.pool.nodes, Nested (.ofString text) parsed.pool n ∧
      (⟨n.span.start⟩ : String.Pos.Raw).IsValid text ∧
      (⟨n.span.stop⟩ : String.Pos.Raw).IsValid text := by
  have hrooted : Rooted (.ofString text) (.empty fileIndex) parsed.pool parsed.root :=
    h.elim parseFile_rooted parseExpression_rooted
  intro n hn
  obtain ⟨i, hi⟩ := Array.getElem?_of_mem hn
  obtain ⟨hstart, hstop⟩ := hrooted.cuts i n hi
  exact ⟨hrooted.nested i n hi, hstart.isValid, hstop.isValid⟩

/-- A string with characters of several bytes, an operator in parentheses and one that binds tighter
behind it. -/
theorem parsed_nested_accents : ∃ parsed, parseExpression (.ofString "(\"é€\" + b).x * -c") 0 =
    .ok parsed ∧ parsed.pool.size = 7 ∧ ∀ n ∈ parsed.pool.nodes,
      Nested (.ofString "(\"é€\" + b).x * -c") parsed.pool n ∧
      (⟨n.span.start⟩ : String.Pos.Raw).IsValid "(\"é€\" + b).x * -c" ∧
      (⟨n.span.stop⟩ : String.Pos.Raw).IsValid "(\"é€\" + b).x * -c" := by
  have hsize : (parseExpression (.ofString "(\"é€\" + b).x * -c") 0).toOption.map (·.pool.size) =
      some 7 := by
    decide +kernel
  obtain ⟨parsed, hparsed, hnodes⟩ := Option.map_eq_some_iff.mp hsize
  rw [toOption_eq_some] at hparsed
  exact ⟨parsed, hparsed, hnodes, parsed_nested (.inr hparsed)⟩

end Grammar

end MicroCompiler
