import MicroCompiler.Proofs.Outline.Line

/-! Indented texts. A sketch is a line with the sketches below it, each of them indented once more
than the line. The depths of the lines tell where a sketch ends, because the next line that is not
deeper than its first one is no part of it, and the blanks that a line begins with tell its depth.
So the text of a sketch tells the sketch. -/

namespace MicroCompiler.Ast

/-- A line and what stands below it. -/
inductive Sketch where
  | entry (text : String) (below : List Sketch)

namespace Sketch

/-! ### Lines -/

mutual

/-- The lines of a sketch that begins at a depth. -/
def lines (depth : Nat) : Sketch → List OutlineLine
  | .entry text below => ⟨depth, text⟩ :: linesAll (depth + 1) below

/-- The lines of sketches that begin at one depth. -/
def linesAll (depth : Nat) : List Sketch → List OutlineLine
  | [] => []
  | s :: rest => s.lines depth ++ linesAll depth rest

end

variable {depth : Nat}

@[simp] theorem linesAll_append (ss more : List Sketch) :
    linesAll depth (ss ++ more) = linesAll depth ss ++ linesAll depth more := by
  induction ss with
  | nil => rfl
  | cons s ss ih => rw [List.cons_append, linesAll, linesAll, ih, List.append_assoc]

/-- The first line of some sketches, or of what follows them, is not too deep. -/
theorem linesAll_head (ss : List Sketch) {rest : List OutlineLine}
    (hrest : ∀ l ∈ rest.head?, l.depth < depth) :
    ∀ l ∈ (linesAll depth ss ++ rest).head?, l.depth ≤ depth := by
  intro l hl
  cases ss with
  | nil => exact (hrest l hl).le
  | cons s ss =>
    obtain ⟨text, below⟩ := s
    obtain rfl := Option.some.inj hl
    exact le_rfl

mutual

/-- A sketch ends in front of the first line that is not deeper than its own. -/
theorem lines_append_inj : ∀ (s s' : Sketch) {depth : Nat} {rest rest' : List OutlineLine},
    (∀ l ∈ rest.head?, l.depth ≤ depth) → (∀ l ∈ rest'.head?, l.depth ≤ depth) →
    s.lines depth ++ rest = s'.lines depth ++ rest' → s = s' ∧ rest = rest'
  | .entry text below, .entry text' below', depth, rest, rest', hrest, hrest', h => by
    rw [lines, lines, List.cons_append, List.cons_append, List.cons.injEq,
      OutlineLine.mk.injEq] at h
    obtain ⟨⟨-, rfl⟩, hbelow⟩ := h
    obtain ⟨rfl, hequal⟩ := linesAll_append_inj below below' (fun l hl =>
      Nat.lt_succ_of_le (hrest l hl)) (fun l hl => Nat.lt_succ_of_le (hrest' l hl)) hbelow
    exact ⟨rfl, hequal⟩

theorem linesAll_append_inj :
    ∀ (ss ss' : List Sketch) {depth : Nat} {rest rest' : List OutlineLine},
    (∀ l ∈ rest.head?, l.depth < depth) → (∀ l ∈ rest'.head?, l.depth < depth) →
    linesAll depth ss ++ rest = linesAll depth ss' ++ rest' → ss = ss' ∧ rest = rest'
  | [], [], depth, rest, rest', _, _, h => ⟨rfl, h⟩
  | [], .entry text below :: ss', depth, rest, rest', hrest, _, h => by
    rw [linesAll, linesAll, lines, List.nil_append] at h
    exact absurd (hrest ⟨depth, text⟩ (by rw [h]; rfl)) (Nat.lt_irrefl _)
  | .entry text below :: ss, [], depth, rest, rest', _, hrest', h => by
    rw [linesAll, linesAll, lines, List.nil_append] at h
    exact absurd (hrest' ⟨depth, text⟩ (by rw [← h]; rfl)) (Nat.lt_irrefl _)
  | s :: ss, s' :: ss', depth, rest, rest', hrest, hrest', h => by
    rw [linesAll, linesAll, List.append_assoc, List.append_assoc] at h
    obtain ⟨rfl, hmore⟩ := lines_append_inj s s' (linesAll_head ss hrest)
      (linesAll_head ss' hrest') h
    obtain ⟨rfl, hequal⟩ := linesAll_append_inj ss ss' hrest hrest' hmore
    exact ⟨rfl, hequal⟩

end

theorem lines_injective {s s' : Sketch} (h : s.lines depth = s'.lines depth) : s = s' := by
  have happend : s.lines depth ++ [] = s'.lines depth ++ [] := by rw [h]
  exact (lines_append_inj s s' (by simp) (by simp) happend).1

end Sketch

/-! ### Texts -/

theorem blanks_append_inj {m n : Nat} {text text' : List Char} (htext : text.head? ≠ some ' ')
    (htext' : text'.head? ≠ some ' ')
    (h : List.replicate m ' ' ++ text = List.replicate n ' ' ++ text') :
    m = n ∧ text = text' := by
  induction m generalizing n with
  | zero =>
    cases n with
    | zero => exact ⟨rfl, h⟩
    | succ n =>
      rw [List.replicate_zero, List.nil_append] at h
      exact absurd (by rw [h]; rfl) htext
  | succ m ih =>
    cases n with
    | zero =>
      rw [List.replicate_zero, List.nil_append] at h
      exact absurd (by rw [← h]; rfl) htext'
    | succ n =>
      obtain ⟨rfl, hequal⟩ := ih (List.cons.inj h).2
      exact ⟨rfl, hequal⟩

theorem OutlineLine.toList_render (l : OutlineLine) :
    l.render.toList = List.replicate (2 * l.depth) ' ' ++ l.text.toList ++
    ['\n'] := by simp [render]

/-- A rendered line ends at its line feed, and it tells its depth and its text. -/
theorem render_append_inj {l l' : OutlineLine} {rest rest' : List Char}
    (h : Label.FillsLine l.text.toList) (h' : Label.FillsLine l'.text.toList)
    (heq : l.render.toList ++ rest = l'.render.toList ++ rest') :
    l = l' ∧ rest = rest' := by
  have hrow {l : OutlineLine} (hl : Label.FillsLine l.text.toList) :
      '\n' ∉ List.replicate (2 * l.depth) ' ' ++ l.text.toList := by
    simp [hl.lineFeed]
  rw [OutlineLine.toList_render, OutlineLine.toList_render, List.append_assoc,
    List.append_assoc _ ['\n']] at heq
  obtain ⟨hline, hrest⟩ := word_append_inj (hrow h) (hrow h') (by simp) (by simp) heq
  obtain ⟨hdepth, htext⟩ := blanks_append_inj h.head h'.head hline
  cases l
  cases l'
  simp only [OutlineLine.mk.injEq]
  exact ⟨⟨Nat.eq_of_mul_eq_mul_left Nat.two_pos hdepth, String.toList_inj.mp htext⟩,
    (List.cons.inj hrest).2⟩

/-- A text of lines tells the lines. -/
theorem render_injective {ls ls' : List OutlineLine} (h : ∀ l ∈ ls, Label.FillsLine l.text.toList)
    (h' : ∀ l ∈ ls', Label.FillsLine l.text.toList)
    (htext : String.join (ls.map OutlineLine.render) = String.join (ls'.map OutlineLine.render)) :
    ls = ls' := by
  rw [← String.toList_inj, String.toList_join, String.toList_join] at htext
  induction ls generalizing ls' with
  | nil =>
    cases ls' with
    | nil => rfl
    | cons l' ls' => simp [OutlineLine.toList_render] at htext
  | cons l ls ih =>
    cases ls' with
    | nil => simp [OutlineLine.toList_render] at htext
    | cons l' ls' =>
      rw [List.forall_mem_cons] at h h'
      obtain ⟨rfl, hrest⟩ := render_append_inj h.1 h'.1 htext
      rw [ih h.2 h'.2 hrest]

end MicroCompiler.Ast
