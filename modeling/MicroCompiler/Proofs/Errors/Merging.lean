import Mathlib.Data.Bool.Basic
import Mathlib.Data.Prod.Lex
import MicroCompiler.Grammar.Production

/-! Merging of failures. Of two diagnostics the one that got further is kept, and the left one if
both got equally far. So the order in which diagnostics are merged matters, but the way in which
they are grouped does not: from left to right the first one that none got beyond remains. A choice
inside a choice is therefore the same as one choice between all alternatives. -/

namespace MicroCompiler

namespace Diagnostic

variable {d e : Diagnostic} {ds : List Diagnostic}

/-- How far a diagnostic got. At one offset a lexical one got further than any other. -/
def reach (d : Diagnostic) : ℕ ×ₗ Bool := toLex (d.offset, d.code.isLexical)

theorem reach_lt_iff : d.reach < e.reach ↔
    d.offset < e.offset ∨ e.offset = d.offset ∧ e.code.isLexical = true ∧
    d.code.isLexical = false := by
  rw [reach, reach, Prod.Lex.toLex_lt_toLex, Bool.lt_iff, eq_comm,
    and_comm (a := d.code.isLexical = false)]

/-- The right one is kept just if it got further. -/
theorem furthest_eq (d e : Diagnostic) : d.furthest e = if d.reach < e.reach then e else d := by
  unfold furthest
  congr 1
  rw [reach_lt_iff]
  simp

theorem furthest_of_lt (h : d.reach < e.reach) : d.furthest e = e := by
  rw [furthest_eq, if_pos h]

theorem furthest_of_le (h : e.reach ≤ d.reach) : d.furthest e = d := by
  rw [furthest_eq, if_neg (not_lt.mpr h)]

theorem furthest_self (d : Diagnostic) : d.furthest d = d := furthest_of_le (le_refl _)

theorem furthest_assoc (a b c : Diagnostic) :
    (a.furthest b).furthest c = a.furthest (b.furthest c) := by
  rcases lt_or_ge a.reach b.reach with hab | hba
  · rw [furthest_of_lt hab]
    rcases lt_or_ge b.reach c.reach with hbc | hcb
    · rw [furthest_of_lt hbc, furthest_of_lt (hab.trans hbc)]
    · rw [furthest_of_le hcb, furthest_of_lt hab]
  · rw [furthest_of_le hba]
    rcases lt_or_ge b.reach c.reach with hbc | hcb
    · rw [furthest_of_lt hbc]
    · rw [furthest_of_le hcb, furthest_of_le hba, furthest_of_le (hcb.trans hba)]

/-- The first of the diagnostics that none of them got beyond. -/
def Foremost (ds : List Diagnostic) (d : Diagnostic) : Prop :=
  ∃ before after, ds = before ++ d :: after ∧ (∀ e ∈ before, e.reach < d.reach) ∧
    ∀ e ∈ after, e.reach ≤ d.reach

theorem Foremost.le (h : Foremost ds d) (he : e ∈ ds) : e.reach ≤ d.reach := by
  obtain ⟨before, after, rfl, hbefore, hafter⟩ := h
  rcases List.mem_append.mp he with he | he
  · exact (hbefore e he).le
  · rcases List.mem_cons.mp he with rfl | he
    · exact le_refl _
    · exact hafter e he

/-- One more diagnostic comes first if it got beyond the one that did so far. -/
theorem Foremost.merge (h : Foremost ds d) (e : Diagnostic) :
    Foremost (ds ++ [e]) (d.furthest e) := by
  by_cases hlt : d.reach < e.reach
  · rw [furthest_of_lt hlt]
    exact ⟨ds, [], rfl, fun x hx => (h.le hx).trans_lt hlt, by simp⟩
  · rw [furthest_of_le (not_lt.mp hlt)]
    obtain ⟨before, after, rfl, hbefore, hafter⟩ := h
    refine ⟨before, after ++ [e], by simp, hbefore, ?_⟩
    intro x hx
    rcases List.mem_append.mp hx with hx | hx
    · exact hafter x hx
    · obtain rfl := List.mem_singleton.mp hx
      exact not_lt.mp hlt

theorem Foremost.foldl (h : Foremost ds d) (es : List Diagnostic) :
    Foremost (ds ++ es) (es.foldl furthest d) := by
  induction es generalizing ds d with
  | nil => rwa [List.append_nil]
  | cons e es ih =>
    rw [List.append_cons]
    exact ih (h.merge e)

theorem foremost_foldl (d : Diagnostic) (ds : List Diagnostic) :
    Foremost (d :: ds) (ds.foldl furthest d) :=
  Foremost.foldl ⟨[], [], rfl, by simp, by simp⟩ ds

end Diagnostic

namespace Grammar

open Production
open Diagnostic (Foremost furthest furthest_assoc furthest_self foremost_foldl)

variable {α : Type} {src : Source} {st st' : State} {best e : Diagnostic} {p : Production α}
  {ps qs : List (Production α)} {es : List Diagnostic}

/-! ### Alternatives one behind the other -/

/-- What is tried next if the outcome is a failure. -/
def Outcome.rescue (o : Outcome α) (f : Diagnostic → State → Outcome α) : Outcome α :=
  match o with
  | .failed e st => f e st
  | o => o

theorem Outcome.rescue_rescue (o : Outcome α) (f g : Diagnostic → State → Outcome α) :
    (o.rescue f).rescue g = o.rescue fun e st => (f e st).rescue g := by
  cases o <;> rfl

theorem Outcome.rescue_failed (o : Outcome α) : o.rescue .failed = o := by
  cases o <;> rfl

theorem orElse_cons (best : Diagnostic) (p : Production α) (ps : List (Production α)) (src : Source)
    (st : State) : orElse best (p :: ps) src st = (p src st).rescue fun e st' =>
    orElse (best.furthest e) ps src st' := by
  simp only [orElse]
  cases p src st <;> rfl

theorem firstOf_cons (p : Production α) (ps : List (Production α)) (src : Source) (st : State) :
    firstOf (p :: ps) src st = (p src st).rescue fun e st' => orElse e ps src st' := by
  simp only [firstOf]
  cases p src st <;> rfl

theorem orElse_append (best : Diagnostic) (ps qs : List (Production α)) (src : Source)
    (st : State) : orElse best (ps ++ qs) src st = (orElse best ps src st).rescue fun e st' =>
    orElse e qs src st' := by
  induction ps generalizing best st with
  | nil => rfl
  | cons p ps ih =>
    rw [List.cons_append, orElse_cons, orElse_cons, Outcome.rescue_rescue]
    congr 1
    funext e st'
    exact ih (best.furthest e) st'

/-- An earlier failure can be merged at the end as well. -/
theorem orElse_furthest (best e : Diagnostic) (ps : List (Production α)) (src : Source)
    (st : State) : orElse (best.furthest e) ps src st = (orElse e ps src st).rescue fun e' st' =>
    .failed (best.furthest e') st' := by
  induction ps generalizing e st with
  | nil => rfl
  | cons p ps ih =>
    rw [orElse_cons, orElse_cons, Outcome.rescue_rescue]
    congr 1
    funext e' st'
    rw [furthest_assoc]
    exact ih (e.furthest e') st'

/-! ### Groups -/

/-- A group among the alternatives may be opened. -/
theorem orElse_firstOf (best : Diagnostic) (hne : ps ≠ []) (qs : List (Production α)) :
    orElse best (firstOf ps :: qs) = orElse best (ps ++ qs) := by
  obtain ⟨p, ps, rfl⟩ := List.exists_cons_of_ne_nil hne
  funext src st
  calc orElse best (firstOf (p :: ps) :: qs) src st
      = (p src st).rescue fun e st' =>
          (orElse e ps src st').rescue fun e' st'' => orElse (best.furthest e') qs src st'' := by
        rw [orElse_cons, firstOf_cons, Outcome.rescue_rescue]
    _ = (p src st).rescue fun e st' =>
          (orElse (best.furthest e) ps src st').rescue fun e' st'' => orElse e' qs src st'' := by
        congr 1
        funext e st'
        rw [orElse_furthest, Outcome.rescue_rescue]
        rfl
    _ = orElse best (p :: ps ++ qs) src st := by
        rw [List.cons_append, orElse_cons]
        congr 1
        funext e st'
        exact (orElse_append (best.furthest e) ps qs src st').symm

theorem orElse_groups {groups : List (List (Production α))} (hne : ∀ ps ∈ groups, ps ≠ [])
    (best : Diagnostic) : orElse best (groups.map firstOf) = orElse best groups.flatten := by
  induction groups generalizing best with
  | nil => rfl
  | cons ps groups ih =>
    have hrest : ∀ best, orElse best (groups.map firstOf) = orElse best groups.flatten :=
      ih fun qs hqs => hne qs (List.mem_cons_of_mem ps hqs)
    rw [List.map_cons, orElse_firstOf best (hne ps List.mem_cons_self), List.flatten_cons]
    funext src st
    rw [orElse_append, orElse_append]
    congr 1
    funext e st'
    rw [hrest]

theorem firstOf_groups {groups : List (List (Production α))} (hne : ∀ ps ∈ groups, ps ≠ [])
    (hgroups : groups ≠ []) : firstOf (groups.map firstOf) = firstOf groups.flatten := by
  obtain ⟨ps, groups, rfl⟩ := List.exists_cons_of_ne_nil hgroups
  obtain ⟨p, ps, rfl⟩ := List.exists_cons_of_ne_nil (hne ps List.mem_cons_self)
  funext src st
  rw [List.map_cons, firstOf_cons, firstOf_cons, Outcome.rescue_rescue, List.flatten_cons,
    List.cons_append, firstOf_cons]
  congr 1
  funext e st'
  rw [orElse_append]
  congr 1
  funext e' st''
  rw [orElse_groups fun qs hqs => hne qs (List.mem_cons_of_mem _ hqs)]

/-- The production is a choice between the alternatives, of which neighbours may be grouped to
choices of their own, and groups again. Every group has a member. -/
inductive Grouped : List (Production α) → Production α → Prop
  | single (p : Production α) : Grouped [p] p
  | choice (parts : List (List (Production α) × Production α)) :
    parts ≠ [] → (∀ part ∈ parts, Grouped part.1 part.2) →
      Grouped (parts.flatMap Prod.fst) (firstOf (parts.map Prod.snd))

theorem Grouped.ne_nil (h : Grouped ps p) : ps ≠ [] := by
  induction h with
  | single p => exact List.cons_ne_nil p []
  | choice parts hparts _ ih =>
    obtain ⟨part, parts, rfl⟩ := List.exists_cons_of_ne_nil hparts
    rw [List.flatMap_cons]
    exact List.append_ne_nil_of_left_ne_nil (ih part List.mem_cons_self) _

/-- All groups may be opened at once. -/
theorem Grouped.eq_firstOf (h : Grouped ps p) : p = firstOf ps := by
  induction h with
  | single p =>
    funext src st
    rw [firstOf_cons]
    exact (Outcome.rescue_failed _).symm
  | choice parts hparts hgrouped ih =>
    have hopen : parts.map Prod.snd = (parts.map Prod.fst).map firstOf := by
      rw [List.map_map]
      exact List.map_congr_left ih
    have hne : ∀ ps ∈ parts.map Prod.fst, ps ≠ [] := by
      intro ps hps
      obtain ⟨part, hpart, rfl⟩ := List.mem_map.mp hps
      exact (hgrouped part hpart).ne_nil
    rw [hopen, firstOf_groups hne (by simpa using hparts), List.flatMap_def]

/-! ### Failures -/

/-- The alternatives are tried one behind the other, each in the state in which the one before has
left off, and every one fails. -/
inductive AllFail (src : Source) : List (Production α) → State → List Diagnostic → State → Prop
  | nil (st : State) : AllFail src [] st [] st
  | cons {p : Production α} {ps : List (Production α)} {st st' st'' : State} {e : Diagnostic}
    {es : List Diagnostic} : p src st = .failed e st' → AllFail src ps st' es st'' →
    AllFail src (p :: ps) st (e :: es) st''

theorem AllFail.orElse (h : AllFail src ps st es st') (best : Diagnostic) :
    orElse best ps src st = .failed (es.foldl furthest best) st' := by
  induction h generalizing best with
  | nil st => rfl
  | @cons p ps st st' st'' e es hp _ ih =>
    rw [orElse_cons, hp]
    exact ih (best.furthest e)

theorem AllFail.firstOf (h : AllFail src ps st es st') (hne : ps ≠ []) :
    ∃ e rest, es = e :: rest ∧ firstOf ps src st = .failed (rest.foldl furthest e) st' := by
  cases h with
  | nil => exact absurd rfl hne
  | @cons p ps st st' st'' e es hp hrest =>
    refine ⟨e, es, rfl, ?_⟩
    rw [firstOf_cons, hp]
    exact hrest.orElse e

/-- Merging is associative and idempotent, from left to right it leaves the first of the diagnostics
that none got beyond, and that is what a choice fails with if all its alternatives fail, however
they are grouped. -/
theorem grouped_fails_furthest :
    (∀ a b c : Diagnostic, (a.furthest b).furthest c = a.furthest (b.furthest c)) ∧
    (∀ a : Diagnostic, a.furthest a = a) ∧
    (∀ (d : Diagnostic) (ds : List Diagnostic), Foremost (d :: ds) (ds.foldl furthest d)) ∧
    ∀ (α : Type) (p : Production α) (ps : List (Production α)), Grouped ps p →
      ∀ src st es st', AllFail src ps st es st' →
        ∃ e rest, es = e :: rest ∧ p src st = .failed (rest.foldl furthest e) st' := by
  refine ⟨furthest_assoc, furthest_self, foremost_foldl, ?_⟩
  intro α p ps hgrouped src st es st' hfail
  rw [hgrouped.eq_firstOf]
  exact hfail.firstOf hgrouped.ne_nil

def typeReport : Diagnostic := ⟨.expectedType, ⟨4, 5⟩, "expected type"⟩
def escapeReport : Diagnostic := ⟨.unknownEscape, ⟨4, 6⟩, "unknown escape sequence"⟩
def stringReport : Diagnostic := ⟨.unterminatedString, ⟨4, 9⟩, "unterminated string literal"⟩

/-- Three alternatives that fail at one offset, the last two of them grouped. -/
def tiedChoice : Production Unit := firstOf [fail typeReport, firstOf [fail escapeReport,
    fail stringReport]]

/-- The second diagnostic remains: the first is not lexical, and the third comes too late. -/
theorem grouped_fails_furthest_tied :
    Grouped [fail typeReport, fail escapeReport, fail stringReport] tiedChoice ∧
      tiedChoice (.ofString "") ⟨.start, .empty 0⟩ = .failed escapeReport ⟨.start, .empty 0⟩ := by
  have hpair : Grouped [fail escapeReport, fail stringReport]
      (firstOf [fail escapeReport, fail stringReport] : Production Unit) :=
    .choice [([fail escapeReport], fail escapeReport), ([fail stringReport], fail stringReport)]
      (by simp) (by simpa using ⟨.single _, .single _⟩)
  have hgrouped : Grouped [fail typeReport, fail escapeReport, fail stringReport] tiedChoice :=
    .choice [([fail typeReport], fail typeReport),
      ([fail escapeReport, fail stringReport], firstOf [fail escapeReport, fail stringReport])]
      (by simp) (by simpa using ⟨.single _, hpair⟩)
  have hfail : AllFail (.ofString "") [fail typeReport, fail escapeReport,
    fail stringReport] ⟨.start, .empty 0⟩
      [typeReport, escapeReport, stringReport] ⟨.start, .empty 0⟩ :=
    .cons (α := Unit) rfl (.cons rfl (.cons rfl (.nil _)))
  obtain ⟨first, rest, hes, hchoice⟩ :=
    grouped_fails_furthest.2.2.2 Unit _ _ hgrouped _ _ _ _ hfail
  obtain ⟨rfl, rfl⟩ := List.cons.inj hes
  have hforemost : [escapeReport, stringReport].foldl furthest typeReport = escapeReport := by
    decide
  rw [hforemost] at hchoice
  exact ⟨hgrouped, hchoice⟩

end Grammar

end MicroCompiler
