import Mathlib.Algebra.Group.Nat.Defs
import Mathlib.Data.Nat.Digits.Defs
import MicroCompiler.Proofs.Grammar.Acceptance.Statement

/-! The language of the parser. A text is accepted just if it is well formed: its tokens are, its
integers are in range, and its kinds are a file. -/

namespace MicroCompiler.Grammar

open Ast (Number)
open Token (Kind)
open Production

variable {src : Source}

/-! ### Tokens and numbers -/

theorem ofToken?_eq_none {t : Token} :
    Diagnostic.ofToken? t src = none ↔ t.kind.isError = false := by
  unfold Diagnostic.ofToken?
  cases t.kind <;> simp [Kind.isError]

theorem tokenize_eq_ok {ts : List Token} :
    Token.tokenize src = .ok ts ↔ ts = Token.scanAll src.bytes 0 ∧ ∀ t ∈ ts,
    t.kind.isError = false := by
  unfold Token.tokenize
  generalize Token.scanAll src.bytes 0 = all
  induction all generalizing ts with
  | nil =>
    simp only [List.mapM_nil, pure, Except.pure, Except.ok.injEq]
    constructor
    · rintro rfl
      simp
    · rintro ⟨rfl, -⟩
      rfl
  | cons t all ih =>
    rw [List.mapM_cons]
    cases hd : Diagnostic.ofToken? t src with
    | some d =>
      have herror : t.kind.isError ≠ false := fun h => by simp [ofToken?_eq_none.mpr h] at hd
      simp only [bind, Except.bind, reduceCtorEq, false_iff]
      rintro ⟨rfl, h⟩
      exact herror (h t (by simp))
    | none =>
      have hproper := ofToken?_eq_none.mp hd
      simp only [bind, Except.bind]
      constructor
      · intro h
        split at h
        · simp at h
        next rest hrest =>
          obtain ⟨rfl, hall⟩ := ih.mp hrest
          obtain rfl : t :: rest = ts := by simpa [pure, Except.pure] using h
          exact ⟨rfl, by simpa using ⟨hproper, hall⟩⟩
      · rintro ⟨rfl, hall⟩
        rw [ih.mpr ⟨rfl, fun t ht => hall t (by simp [ht])⟩]
        rfl

/-- Digits spell a number to base ten, the last one being its units. -/
theorem ofDigits_eq (digits : List Char) :
    Number.ofDigits digits =
      Nat.ofDigits 10 (digits.reverse.map fun c => c.toNat - '0'.toNat) := by
  induction digits using List.reverseRecOn with
  | nil => rfl
  | append_singleton digits c ih =>
    rw [List.reverse_append, List.reverse_singleton, List.singleton_append, List.map_cons,
      Nat.ofDigits_cons, ← ih, Number.ofDigits, List.foldl_append]
    simp [Number.ofDigits, Nat.add_comm]

theorem isSome_ofText?_iff (text : String) :
    (Number.ofText? text).isSome ↔ ('.' ∉ text.toList → Number.ofDigits text.toList < 2 ^ 64) := by
  unfold Number.ofText?
  by_cases hdot : '.' ∈ text.toList
  · have hne : text.toList.dropWhile (· ≠ '.') ≠ [] := by
      rw [Ne, List.dropWhile_eq_nil_iff]
      exact fun h => by simpa using h '.' hdot
    obtain ⟨c, rest, hrest⟩ := List.exists_cons_of_ne_nil hne
    simp only [hrest, Option.isSome_some, true_iff]
    exact fun h => absurd hdot h
  · have hall (c : Char) (hc : c ∈ text.toList) : decide (c ≠ '.') = true := by
      rw [decide_eq_true_iff]
      rintro rfl
      exact hdot hc
    have htake : text.toList.takeWhile (· ≠ '.') = text.toList :=
      List.takeWhile_eq_self_iff.mpr hall
    have hdrop : text.toList.dropWhile (· ≠ '.') = [] := List.dropWhile_eq_nil_iff.mpr hall
    simp only [htake, hdrop, hdot, not_false_eq_true, true_imp_iff]
    split_ifs with hlt
    · simpa using hlt
    · simpa using hlt

/-- A token that is no error is seen as what it is unless it is an integer out of range, which is
seen as an error. -/
theorem symbolOf_isError_iff {t : Token} :
    (symbolOf src t).isError = false ↔ t.kind.isError = false ∧ symbolOf src t = t.kind ∧
      (t.kind = .number → '.' ∉ (src.text t.span).toList →
        Number.ofDigits (src.text t.span).toList < 2 ^ 64) := by
  rw [← isSome_ofText?_iff]
  by_cases hnumber : t.kind = .number
  · cases hvalue : Number.ofText? (src.text t.span) with
    | some v | none => simp [symbolOf, hnumber, hvalue, Kind.isError]
  · simp [symbolOf, hnumber]

/-- A text is accepted just if what is seen in it is a file. -/
theorem parseFile_ok_iff (src : Source) (fileIndex : Nat) :
    (∃ parsed, parseFile src fileIndex = .ok parsed) ↔
      ∃ kinds, (Token.scanAll src.bytes 0).map (symbolOf src) = kinds ++ [.eof] ∧ IsFile kinds := by
  have hstart : At src ⟨.start, .empty fileIndex⟩ ((Token.scanAll src.bytes 0).map (symbolOf src))
      (.empty fileIndex) :=
    ⟨Token.Cursor.sound_start src, by simp, rfl⟩
  have hbudget : ((Token.scanAll src.bytes 0).map (symbolOf src)).length ≤ budget src := by
    rw [List.length_map]
    exact Token.scanAll_length_le src.bytes
  have hreads := @file_reads src src.size (budget src)
  rw [parseFile, run]
  constructor
  · rintro ⟨parsed, hparsed⟩
    rcases sat_iff.mp (hreads hstart hbudget) with
      ⟨root, st, hok, xs, ys, q, hks, -, -, -, hfile, rfl⟩ | ⟨e, st, hfailed, -⟩ | h
    · exact ⟨xs, hks, hfile⟩
    · simp [hfailed] at hparsed
    · exact h.choose_spec.2.elim
  · rintro ⟨kinds, hkinds, hfile⟩
    rw [hkinds] at hstart hbudget
    have hsat := (file_accepts src.size (budget src) hfile).sat (E := fun _ => False)
      (B := False) hreads.reads hstart ⟨hbudget, rfl⟩ hbudget
    rcases sat_iff.mp hsat with ⟨root, st, hok, -⟩ | ⟨e, st, -, h⟩ | ⟨f, -, h⟩
    · rw [hok]
      exact ⟨_, rfl⟩
    · exact h.elim
    · exact h.elim

/-- A text is accepted just if it has no malformed tokens, its integers are below 2^64, and the
kinds of its tokens up to the end are a file. -/
theorem parseFile_ok_iff_isFile (src : Source) (fileIndex : Nat) :
    (∃ parsed, parseFile src fileIndex = .ok parsed) ↔
      ∃ tokens, Token.tokenize src = .ok tokens ∧
        (∀ t ∈ tokens, t.kind = .number → '.' ∉ (src.text t.span).toList →
          Number.ofDigits (src.text t.span).toList < 2 ^ 64) ∧
        ∃ kinds, tokens.map (·.kind) = kinds ++ [.eof] ∧ IsFile kinds := by
  rw [parseFile_ok_iff]
  constructor
  · rintro ⟨kinds, hkinds, hfile⟩
    have hproper (t : Token) (ht : t ∈ Token.scanAll src.bytes 0) : (symbolOf src t).isError =
        false := by
      have hmem : symbolOf src t ∈ kinds ++ [.eof] := hkinds ▸ List.mem_map_of_mem ht
      rcases List.mem_append.mp hmem with hmem | hmem
      · exact hfile.proper _ hmem
      · rw [List.mem_singleton.mp hmem]
        rfl
    have htoken (t : Token) (ht : t ∈ Token.scanAll src.bytes 0) :=
      symbolOf_isError_iff.mp (hproper t ht)
    refine ⟨Token.scanAll src.bytes 0, tokenize_eq_ok.mpr ⟨rfl, fun t ht => (htoken t ht).1⟩,
      fun t ht => (htoken t ht).2.2, kinds, ?_, hfile⟩
    rw [← hkinds]
    exact List.map_congr_left fun t ht => (htoken t ht).2.1.symm
  · rintro ⟨tokens, htokens, hrange, kinds, hkinds, hfile⟩
    obtain ⟨rfl, hproper⟩ := tokenize_eq_ok.mp htokens
    refine ⟨kinds, ?_, hfile⟩
    rw [← hkinds]
    refine List.map_congr_left fun t ht => ?_
    by_cases hnumber : t.kind = .number
    · obtain ⟨v, hv⟩ := Option.isSome_iff_exists.mp ((isSome_ofText?_iff _).mpr
        (hrange t ht hnumber))
      simp [symbolOf, hnumber, hv]
    · exact symbolOf_eq hnumber

end MicroCompiler.Grammar
