import Mathlib.Tactic.Common
import MicroCompiler.Command.Options
import MicroCompiler.Proofs.Results

/-! Options against the environment. A command line is a row of pieces: options, each with its value
behind an equals sign or as the next argument, and arguments of their own. Reading keeps the value
of the last option, so with an option on the command line the environment has no say in the number
of threads. But the environment is read first, and one that is malformed stops the reading before
any option is seen. -/

namespace MicroCompiler.Command.Options

variable {args : List String} {options : Options} {positional : List String}

/-! ### Pieces -/

/-- A piece of a command line. -/
inductive Piece where
  /-- An option with its value behind an equals sign. -/
  | joined (value : String)
  /-- An option with its value as the next argument. -/
  | apart (short : Bool) (value : String)
  | argument (text : String)
  deriving DecidableEq, Repr

namespace Piece

def spelling : Piece → List String
  | .joined value => ["--threads=" ++ value]
  | .apart short value => [if short then "-j" else "--threads", value]
  | .argument text => [text]

/-- The value of an option. -/
def value? : Piece → Option String
  | .joined value | .apart _ value => some value
  | .argument _ => none

/-- What is no option. -/
def argument? : Piece → Option String
  | .argument text => some text
  | _ => none

/-- An argument begins with no dash, unless it is a single dash. -/
def Proper : Piece → Prop
  | .argument text => text = "-" ∨ text.toList.head? ≠ some '-'
  | _ => True

end Piece

/-- The command line is the row of pieces. -/
def Splits (args : List String) (pieces : List Piece) : Prop :=
  (∀ p ∈ pieces, p.Proper) ∧ args = pieces.flatMap Piece.spelling

/-- The values of the options, in order. -/
def values (pieces : List Piece) : List String := pieces.filterMap Piece.value?

/-! ### Forms -/

theorem toList_joined (value : String) :
    ("--threads=" ++ value).toList = threadsMark ++ value.toList :=
  String.toList_append

theorem form_joined (value : String) : form ("--threads=" ++ value) = .threads value := by
  simp only [form, toList_joined]
  rw [if_pos (List.isPrefixOf_iff_prefix.mpr (List.prefix_append _ _)), List.drop_left,
    String.ofList_toList]

theorem form_apart (short : Bool) : form (if short then "-j" else "--threads") = .threadsNext := by
  cases short <;> decide

theorem form_argument {text : String} (h : (Piece.argument text).Proper) :
    form text = .positional := by
  rcases h with rfl | h
  · decide
  · have hmark : ¬ threadsMark.isPrefixOf text.toList = true := by
      intro hprefix
      obtain ⟨rest, hrest⟩ := List.isPrefixOf_iff_prefix.mp hprefix
      rw [← hrest] at h
      exact h rfl
    have hoption : ¬ (text = threadsOption ∨ text = "-j") := by
      rintro (rfl | rfl)
      · exact h (by decide)
      · exact h (by decide)
    simp only [form]
    rw [if_neg hmark, if_neg hoption]
    split
    next hdash =>
      rw [hdash] at h
      exact absurd rfl h
    next => rfl

theorem eq_of_form_threads {arg value : String} (h : form arg = .threads value) :
    arg = "--threads=" ++ value := by
  simp only [form] at h
  split_ifs at h with hmark hoption
  · obtain ⟨rest, hrest⟩ := List.isPrefixOf_iff_prefix.mp hmark
    rw [← hrest, List.drop_left] at h
    apply String.toList_injective
    rw [toList_joined, ← Form.threads.inj h, String.toList_ofList, hrest]
  · split at h <;> cases h

theorem eq_of_form_threadsNext {arg : String} (h : form arg = .threadsNext) :
    ∃ short : Bool, arg = if short then "-j" else "--threads" := by
  simp only [form] at h
  split_ifs at h with hmark hoption
  · rcases hoption with rfl | rfl
    · exact ⟨false, rfl⟩
    · exact ⟨true, rfl⟩
  · split at h <;> cases h

theorem proper_of_form_positional {arg : String} (h : form arg = .positional) :
    (Piece.argument arg).Proper := by
  simp only [form] at h
  split_ifs at h
  split at h
  · cases h
  next hdash =>
    by_cases hsingle : arg = "-"
    · exact .inl hsingle
    · refine .inr fun hhead => ?_
      obtain ⟨rest, hrest⟩ := List.head?_eq_some_iff.mp hhead
      cases rest with
      | nil => exact hsingle (String.toList_injective hrest)
      | cons c rest => exact hdash c rest hrest

/-! ### Cutting into pieces -/

theorem Splits.nil : Splits [] [] := ⟨by simp, rfl⟩

theorem Splits.cons {p : Piece} {pieces : List Piece} (hp : p.Proper) (h : Splits args pieces) :
    Splits (p.spelling ++ args) (p :: pieces) :=
  ⟨List.forall_mem_cons.mpr ⟨hp, h.1⟩, by rw [List.flatMap_cons, ← h.2]⟩

/-- What can be read can be cut into pieces. -/
theorem exists_splits {r : Options × List String} (h : readFrom options args = .ok r) :
    ∃ pieces, Splits args pieces := by
  fun_induction readFrom options args generalizing r with
  | case1 options => exact ⟨[], .nil⟩
  | case2 options arg rest value hform ih =>
    obtain ⟨threads, -, hrest⟩ := bind_eq_ok.mp h
    obtain ⟨pieces, hpieces⟩ := ih threads hrest
    rw [eq_of_form_threads hform]
    exact ⟨.joined value :: pieces, hpieces.cons trivial⟩
  | case3 => cases h
  | case4 options arg hform value rest ih =>
    obtain ⟨threads, -, hrest⟩ := bind_eq_ok.mp h
    obtain ⟨pieces, hpieces⟩ := ih threads hrest
    obtain ⟨short, rfl⟩ := eq_of_form_threadsNext hform
    exact ⟨.apart short value :: pieces, hpieces.cons trivial⟩
  | case5 => cases h
  | case6 options arg rest hform ih =>
    obtain ⟨read, hrest, -⟩ := bind_eq_ok.mp h
    obtain ⟨pieces, hpieces⟩ := ih hrest
    exact ⟨.argument arg :: pieces, hpieces.cons (proper_of_form_positional hform)⟩

/-! ### Reading pieces -/

theorem readFrom_option {p : Piece} {value : String} (h : p.value? = some value) (options : Options)
    (rest : List String) :
    readFrom options (p.spelling ++ rest) =
      (count threadsOption value).bind fun threads => readFrom ⟨threads⟩ rest := by
  cases p with
  | joined v =>
    obtain rfl := Option.some.inj h
    rw [Piece.spelling, List.singleton_append, readFrom.eq_def]
    simp only [form_joined]
    rfl
  | apart short v =>
    obtain rfl := Option.some.inj h
    rw [Piece.spelling, List.cons_append, List.singleton_append, readFrom.eq_def]
    simp only [form_apart]
    rfl
  | argument text => cases h

theorem readFrom_argument {text : String} (h : (Piece.argument text).Proper) (options : Options)
    (rest : List String) : readFrom options (text :: rest) = (readFrom options rest).map fun r =>
    (r.1, text :: r.2) := by
  rw [readFrom.eq_def]
  simp only [form_argument h]
  cases readFrom options rest <;> rfl

/-- The number of threads behind the options: the count of the last one, if there is one. -/
def settled (before : UInt64) (values : List String) : UInt64 :=
  (values.getLast?.bind count?).getD before

theorem settled_cons {value : String} {threads : UInt64} (hvalue : count? value = some threads)
    {values : List String} (hvalues : ∀ v ∈ values, (count? v).isSome = true) (before : UInt64) :
    settled before (value :: values) = settled threads values := by
  rcases List.eq_nil_or_concat' values with rfl | ⟨front, last, rfl⟩
  · simp [settled, hvalue]
  · obtain ⟨threads', hlast⟩ := Option.isSome_iff_exists.mp (hvalues last (by simp))
    rw [settled, settled, ← List.cons_append, List.getLast?_concat, List.getLast?_concat,
      Option.bind_some, hlast]
    rfl

/-- Pieces can be read just if the values of all options are counts. -/
theorem readFrom_pieces {pieces : List Piece} (hproper : ∀ p ∈ pieces, p.Proper)
    {r : Options × List String} : readFrom options (pieces.flatMap Piece.spelling) = .ok r ↔
      (∀ v ∈ values pieces, (count? v).isSome = true) ∧
        r = (⟨settled options.threads (values pieces)⟩, pieces.filterMap Piece.argument?) := by
  induction pieces generalizing options r with
  | nil =>
    rw [List.flatMap_nil, readFrom]
    constructor
    · intro h
      exact ⟨fun v hv => absurd hv List.not_mem_nil, (Except.ok.inj h).symm⟩
    · rintro ⟨-, rfl⟩
      rfl
  | cons p pieces ih =>
    obtain ⟨hp, hpieces⟩ := List.forall_mem_cons.mp hproper
    have hoption : ∀ value, p.value? = some value → p.argument? = none →
        (readFrom options (p.spelling ++ pieces.flatMap Piece.spelling) = .ok r ↔
          (∀ v ∈ values (p :: pieces), (count? v).isSome = true) ∧
            r = (⟨settled options.threads (values (p :: pieces))⟩,
            (p :: pieces).filterMap Piece.argument?)) := by
      intro value hvalue hargument
      rw [readFrom_option hvalue, values, List.filterMap_cons_some hvalue, List.filterMap_cons_none
        hargument, ← values]
      cases hcount : count? value with
      | none => simp [count, hcount, Except.bind]
      | some threads =>
        simp only [count, hcount, Except.bind, ih hpieces, List.forall_mem_cons,
          Option.isSome_some, true_and]
        refine and_congr_right fun hvalues => ?_
        rw [settled_cons hcount hvalues]
    rw [List.flatMap_cons]
    cases p with
    | joined value => exact hoption value rfl rfl
    | apart short value => exact hoption value rfl rfl
    | argument text =>
      rw [Piece.spelling, List.singleton_append, readFrom_argument hp, map_eq_ok]
      simp only [ih hpieces]
      constructor
      · rintro ⟨_, ⟨hvalues, rfl⟩, rfl⟩
        exact ⟨hvalues, rfl⟩
      · rintro ⟨hvalues, rfl⟩
        exact ⟨_, ⟨hvalues, rfl⟩, rfl⟩

/-! ### The environment -/

/-- The environment variable is not set, is blank, or is a count. -/
def Readable : Option String → Prop
  | none => True
  | some value => (Text.trim value.toList).isEmpty = true ∨ (count? value).isSome = true

theorem Readable.ofEnvironment {setting : Option String} (h : Readable setting) :
    ∃ options, ofEnvironment setting = .ok options := by
  cases setting with
  | none => exact ⟨_, rfl⟩
  | some value =>
    by_cases hblank : (Text.trim value.toList).isEmpty = true
    · exact ⟨⟨0⟩, by rw [Options.ofEnvironment, if_pos hblank]⟩
    · obtain ⟨threads, hcount⟩ := Option.isSome_iff_exists.mp (h.resolve_left hblank)
      exact ⟨⟨threads⟩, by rw [Options.ofEnvironment, if_neg hblank, count, hcount]; rfl⟩

theorem ofEnvironment_of_not_readable {value : String} (h : ¬ Readable (some value)) :
    ofEnvironment (some value) = .error (.invalidValue threadsVariable value) := by
  obtain ⟨hblank, hcount⟩ := not_or.mp h
  rw [Bool.not_eq_true, Option.isSome_eq_false_iff, Option.isNone_iff_eq_none] at hcount
  rw [ofEnvironment, if_neg hblank, count, hcount]
  rfl

/-- If a command line with an option can be read at all, then its last option gives the number of
threads, and what is read is the same for every environment but a malformed one. That one is
refused, whatever the options say. -/
theorem read_last_option (h : read args none = .ok (options, positional)) :
    (∃ pieces, Splits args pieces) ∧ ∀ pieces value, Splits args pieces → (values pieces).getLast? =
      some value → count? value = some options.threads ∧
      positional = pieces.filterMap Piece.argument? ∧
      (∀ setting, Readable setting → read args setting = .ok (options, positional)) ∧
      ∀ value, ¬ Readable (some value) →
      read args (some value) = .error (.invalidValue threadsVariable value) := by
  have hread : readFrom ⟨0⟩ args = .ok (options, positional) := h
  refine ⟨exists_splits hread, ?_⟩
  rintro pieces value ⟨hproper, rfl⟩ hlast
  obtain ⟨hvalues, hresult⟩ := (readFrom_pieces hproper).mp hread
  obtain ⟨threads, hcount⟩ := Option.isSome_iff_exists.mp
    (hvalues value (List.mem_of_getLast? hlast))
  have hsettled : ∀ before, settled before (values pieces) = threads := by
    intro before
    rw [settled, hlast, Option.bind_some, hcount]
    rfl
  rw [hsettled] at hresult
  obtain ⟨rfl, rfl⟩ := Prod.mk.inj hresult
  refine ⟨hcount, rfl, fun setting hreadable => ?_, fun malformed hmalformed => ?_⟩
  · obtain ⟨before, hbefore⟩ := hreadable.ofEnvironment
    rw [read, hbefore]
    exact (readFrom_pieces hproper).mpr ⟨hvalues, by rw [hsettled]⟩
  · rw [read, ofEnvironment_of_not_readable hmalformed]
    rfl

/-- Two options of different forms, a value with a sign and a blank, and an argument that is a
single dash. -/
theorem read_last_option_repeated :
    read ["-j", "8", "a.c6", "--threads=+2 ", "-"] none = .ok (⟨2⟩, ["a.c6", "-"]) ∧
      read ["-j", "8", "a.c6", "--threads=+2 ", "-"] (some " 16") = .ok (⟨2⟩, ["a.c6", "-"]) := by
  have hread : read ["-j", "8", "a.c6", "--threads=+2 ", "-"] none = .ok (⟨2⟩, ["a.c6", "-"]) := by
    decide
  have hsplits : Splits ["-j", "8", "a.c6", "--threads=+2 ", "-"]
      [.apart true "8", .argument "a.c6", .joined "+2 ", .argument "-"] := by
    refine ⟨?_, by decide⟩
    simp [Piece.Proper]
  obtain ⟨-, -, hsame, -⟩ := (read_last_option hread).2 _ _ hsplits rfl
  exact ⟨hread, hsame (some " 16") (.inr (by decide))⟩

/-- The option is there, but the environment is refused before it is seen. -/
theorem malformed_environment_refused :
    read ["-j", "2"] none = .ok (⟨2⟩, []) ∧
      read ["-j", "2"] (some "x") = .error (.invalidValue threadsVariable "x") := by
  decide

end MicroCompiler.Command.Options
