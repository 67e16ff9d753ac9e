import MicroCompiler.Proofs.TokenStream

/-! Cursors as indices. A source fixes one endless stream of tokens, each scanned from the end of
the one before it, and the end of the file repeats. A cursor keeps an offset and at most one token,
but it behaves like an index into that stream, however it is read, rewound and copied: the reading
of cursors is the image of the reading of indices. Main statement: `cursors_index_stream`. -/

namespace MicroCompiler.Token

variable {src : Source} {i j k : Nat}

/-! ### The stream of a source -/

/-- The tokens of a source, without end. -/
def stream (src : Source) : Nat → Token
  | 0 => next src.bytes 0
  | i + 1 => next src.bytes (stream src i).span.stop

/-- Where the scan for a token of the stream starts: at the end of the token before it. -/
def scanStart (src : Source) : Nat → Nat
  | 0 => 0
  | i + 1 => (stream src i).span.stop

theorem stream_eq (src : Source) (i : Nat) : stream src i = next src.bytes (scanStart src i) := by
  cases i <;> rfl

/-- Behind the end of the file nothing else comes. -/
theorem stream_succ_of_eof (h : (stream src i).kind = .eof) :
    stream src (i + 1) = stream src i := by
  rw [stream_eq] at h
  simp only [stream]
  rw [stream_eq, next_of_eof h]

theorem scanStart_le_stop (src : Source) (i : Nat) :
    scanStart src i ≤ (stream src i).span.stop := by
  rw [stream_eq]
  simp only [next]
  omega

theorem scanStart_mono (src : Source) (h : i ≤ j) : scanStart src i ≤ scanStart src j := by
  induction h with
  | refl => exact Nat.le_refl _
  | @step j _ ih => exact Nat.le_trans ih (scanStart_le_stop src j)

/-- A token that is not the end of the file ends behind all tokens before it, so its index is
unique. -/
theorem stop_lt_stop (hlt : i < j) (h : (stream src j).kind ≠ .eof) :
    (stream src i).span.stop < (stream src j).span.stop := by
  rw [stream_eq src j] at h ⊢
  exact Nat.lt_of_le_of_lt (scanStart_mono src hlt) (next_of_ne_eof h).1

theorem stream_injective (h : stream src i = stream src j) :
    i = j ∨ (stream src i).kind = .eof := by
  by_cases heof : (stream src i).kind = .eof
  · exact .inr heof
  · rcases Nat.lt_trichotomy i j with hlt | heq | hlt
    · have hstop := stop_lt_stop hlt (h ▸ heof)
      rw [h] at hstop
      exact absurd hstop (Nat.lt_irrefl _)
    · exact .inl heq
    · have hstop := stop_lt_stop hlt heof
      rw [h] at hstop
      exact absurd hstop (Nat.lt_irrefl _)

/-! ### Walks -/

/-- A call on one of several cursors. A token to go back to is named by the number of the answer
that gave it. -/
inductive Call where
  | peek (cursor : Nat)
  | eat (cursor : Nat)
  | reset (cursor answer : Nat)
  | clone (cursor : Nat)
  deriving DecidableEq, Repr

/-- The cursor that a call may change. A copy changes none. -/
def Call.changes? : Call → Option Nat
  | .peek k | .eat k | .reset k _ => some k
  | .clone _ => none

/-- Cursors of type `γ`, each of which gives answers of type `τ` and can go back to any of them. -/
structure Walker (γ τ : Type) where
  start : γ
  peek : γ → τ × γ
  eat : γ → τ × γ
  reset : τ → γ

/-- The cursors in use, and all answers given so far by any of them. -/
structure Walk (γ τ : Type) where
  cursors : List γ
  answers : List τ
  deriving DecidableEq

namespace Walker

variable {γ γ' τ τ' : Type}

/-- The cursor `k` is read. -/
def read (s : Walk γ τ) (k : Nat) (look : γ → τ × γ) : Walk γ τ :=
  match s.cursors[k]? with
  | some c => ⟨s.cursors.set k (look c).2, s.answers ++ [(look c).1]⟩
  | none => s

/-- A call that names no cursor or no answer is ignored. -/
def step (w : Walker γ τ) (s : Walk γ τ) : Call → Walk γ τ
  | .peek k => read s k w.peek
  | .eat k => read s k w.eat
  | .reset k n =>
    match s.answers[n]? with
    | some t => { s with cursors := s.cursors.set k (w.reset t) }
    | none => s
  | .clone k => { s with cursors := s.cursors ++ s.cursors[k]?.toList }

/-- All calls in order, from one cursor at the start. -/
def run (w : Walker γ τ) (calls : List Call) : Walk γ τ := calls.foldl w.step ⟨[w.start], []⟩

theorem run_append (w : Walker γ τ) (calls more : List Call) :
    w.run (calls ++ more) = more.foldl w.step (w.run calls) := List.foldl_append

/-- Cursors that a walk finds are kept by calls that do not change them. -/
theorem step_untouched (w : Walker γ τ) {s : Walk γ τ} {call : Call}
    (hcall : call.changes? ≠ some k) (hk : k < s.cursors.length) :
    (w.step s call).cursors[k]? = s.cursors[k]? ∧ k < (w.step s call).cursors.length := by
  have hset : ∀ {l : Nat} (c : γ), l ≠ k → (s.cursors.set l c)[k]? = s.cursors[k]? ∧
      k < (s.cursors.set l c).length :=
    fun c hl => ⟨List.getElem?_set_ne hl, by simpa using hk⟩
  have hread : ∀ {l : Nat} (look : γ → τ × γ), l ≠ k →
      (read s l look).cursors[k]? = s.cursors[k]? ∧ k < (read s l look).cursors.length := by
    intro l look hl
    unfold read
    split
    · exact hset _ hl
    · exact ⟨rfl, hk⟩
  cases call with
  | peek l => exact hread w.peek (by simpa [Call.changes?] using hcall)
  | eat l => exact hread w.eat (by simpa [Call.changes?] using hcall)
  | reset l n =>
    simp only [step]
    split
    · exact hset _ (by simpa [Call.changes?] using hcall)
    · exact ⟨rfl, hk⟩
  | clone l =>
    simp only [step, List.length_append]
    exact ⟨List.getElem?_append_left hk, by omega⟩

theorem run_untouched (w : Walker γ τ) {calls more : List Call}
    (hmore : ∀ call ∈ more, call.changes? ≠ some k)
    (hk : k < (w.run calls).cursors.length) :
    (w.run (calls ++ more)).cursors[k]? = (w.run calls).cursors[k]? := by
  rw [run_append]
  generalize w.run calls = s at hk
  induction more generalizing s with
  | nil => rfl
  | cons call more ih =>
    obtain ⟨hsame, hk'⟩ := w.step_untouched (hmore call List.mem_cons_self) hk
    rw [List.foldl_cons, ih (fun c hc => hmore c (List.mem_cons_of_mem _ hc)) _ hk', hsame]

end Walker

/-! ### Images of walks -/

section

variable {γ γ' τ τ' : Type}

/-- The cursors of `w` are images of those of `w'`, and so are their answers. -/
structure Walker.Image (w : Walker γ τ) (w' : Walker γ' τ') (f : γ' → γ) (g : τ' → τ) : Prop where
  start : w.start = f w'.start
  peek : ∀ q, w.peek (f q) = (g (w'.peek q).1, f (w'.peek q).2)
  eat : ∀ q, w.eat (f q) = (g (w'.eat q).1, f (w'.eat q).2)
  reset : ∀ n, w.reset (g n) = f (w'.reset n)

def Walk.map (f : γ' → γ) (g : τ' → τ) (s : Walk γ' τ') : Walk γ τ :=
  ⟨s.cursors.map f, s.answers.map g⟩

theorem Walk.map_read {f : γ' → γ} {g : τ' → τ} {look : γ → τ × γ} {look' : γ' → τ' × γ'}
    (h : ∀ q, look (f q) = (g (look' q).1, f (look' q).2)) (s : Walk γ' τ') (k : Nat) :
    Walker.read (s.map f g) k look = (Walker.read s k look').map f g := by
  simp only [Walker.read, Walk.map, List.getElem?_map]
  cases s.cursors[k]? with
  | none => rfl
  | some q => simp [h, List.map_set]

namespace Walker.Image

variable {w : Walker γ τ} {w' : Walker γ' τ'} {f : γ' → γ} {g : τ' → τ}

theorem step (h : Image w w' f g) (s : Walk γ' τ') (call : Call) :
    w.step (s.map f g) call = (w'.step s call).map f g := by
  cases call with
  | peek k => exact s.map_read h.peek k
  | eat k => exact s.map_read h.eat k
  | reset k n =>
    simp only [Walker.step, Walk.map, List.getElem?_map]
    cases s.answers[n]? with
    | none => rfl
    | some t => simp [h.reset, List.map_set]
  | clone k =>
    simp only [Walker.step, Walk.map, List.getElem?_map]
    cases s.cursors[k]? <;> simp

theorem run (h : Image w w' f g) (calls : List Call) : w.run calls = (w'.run calls).map f g := by
  have hfold : ∀ s : Walk γ' τ', calls.foldl w.step (s.map f g) =
      (calls.foldl w'.step s).map f g := by
    induction calls with
    | nil => exact fun s => rfl
    | cons call calls ih =>
      intro s
      rw [List.foldl_cons, List.foldl_cons, h.step, ih]
  have hstart : (⟨[w.start], []⟩ : Walk γ τ) = Walk.map f g ⟨[w'.start], []⟩ := by
    simp [Walk.map, h.start]
  rw [Walker.run, Walker.run, hstart, hfold]

end Walker.Image

end

/-! ### Cursors and indices -/

/-- An index into the stream, and whether the token there has been read ahead. -/
structure Spot where
  index : Nat
  ahead : Bool
  deriving DecidableEq, Repr

namespace Spot

/-- Indices are read and rewound by counting. -/
def walker : Walker Spot Nat where
  start := ⟨0, false⟩
  peek q := (q.index, ⟨q.index, true⟩)
  eat q := (q.index, ⟨q.index + 1, false⟩)
  reset i := ⟨i, true⟩

/-- The start of the token if it has been read ahead, else the end of the token before it. -/
def position (src : Source) (q : Spot) : Nat :=
  if q.ahead then (stream src q.index).span.start else scanStart src q.index

/-- The cursor that stands at an index. -/
def cursor (src : Source) (q : Spot) : Cursor :=
  if q.ahead then .reset (stream src q.index) else ⟨scanStart src q.index, none⟩

theorem peek_cursor (src : Source) (q : Spot) :
    (q.cursor src).peek src = (stream src q.index, .reset (stream src q.index)) := by
  cases h : q.ahead with
  | true => simp [cursor, h, Cursor.peek, Cursor.reset]
  | false => simp [cursor, h, Cursor.peek, Cursor.reset, stream_eq]

theorem position_cursor (src : Source) (q : Spot) : (q.cursor src).position = q.position src := by
  cases h : q.ahead <;> simp [cursor, position, h, Cursor.position, Cursor.reset]

end Spot

/-- The cursors over a source. -/
def Cursor.walker (src : Source) : Walker Cursor Token where
  start := .start
  peek c := c.peek src
  eat c := c.eat src
  reset := .reset

theorem Cursor.walker_image (src : Source) :
    (Cursor.walker src).Image Spot.walker (Spot.cursor src) (stream src) where
  start := rfl
  peek q := by
    simp only [Cursor.walker, Spot.peek_cursor]
    rfl
  eat q := by
    simp only [Cursor.walker, Cursor.eat, Spot.peek_cursor]
    rfl
  reset i := rfl

/-- However cursors over a source are read, rewound to earlier answers and copied, they give the
tokens that indices into the stream of the source give when they are moved in the same way, and each
stands where its index says. At the end of the file the stream stays the same, and any other token
has one index only. A cursor changes by calls on itself only. -/
theorem cursors_index_stream (src : Source) (calls : List Call) :
    ((Cursor.walker src).run calls).answers = (Spot.walker.run calls).answers.map (stream src) ∧
    ((Cursor.walker src).run calls).cursors.map (fun c => ((c.peek src).1, c.position)) =
      (Spot.walker.run calls).cursors.map (fun q => (stream src q.index, q.position src)) ∧
    (∀ i, (stream src i).kind = .eof → stream src (i + 1) = stream src i) ∧
    (∀ i j, stream src i = stream src j → i = j ∨ (stream src i).kind = .eof) ∧
    ∀ (more : List Call) (k : Nat), (∀ call ∈ more, call.changes? ≠ some k) →
      k < ((Cursor.walker src).run calls).cursors.length →
      ((Cursor.walker src).run (calls ++ more)).cursors[k]? =
      ((Cursor.walker src).run calls).cursors[k]? := by
  refine ⟨?_, ?_, fun i => stream_succ_of_eof, fun i j => stream_injective, ?_⟩
  · rw [(Cursor.walker_image src).run]
    rfl
  · rw [(Cursor.walker_image src).run, Walk.map, List.map_map]
    simp only [Function.comp_def, Spot.peek_cursor, Spot.position_cursor]
  · exact fun more k hmore hk => (Cursor.walker src).run_untouched hmore hk

/-- A literal with an unknown escape, a name, and a blank at the end. -/
def strayEscape : Source := .ofString "\"\\q x "

/-- The first token is read, the cursor is copied, and the copy reads past the end of the file and
goes back to the first token, which is an error. Then the first cursor goes to the end of the file,
where it has not been. -/
def rewoundCalls : List Call := [.eat 0, .clone 0, .eat 1, .eat 1, .eat 1, .peek 0, .reset 1 0,
    .eat 1, .reset 0 2]

theorem cursors_index_stream_rewound :
    ((Cursor.walker strayEscape).run rewoundCalls).answers =
      [⟨.unknownEscape, 1, 3⟩, ⟨.identifier, 4, 5⟩, ⟨.eof, 6, 6⟩,
      ⟨.eof, 6, 6⟩, ⟨.identifier, 4, 5⟩, ⟨.unknownEscape, 1, 3⟩] ∧
    ((Cursor.walker strayEscape).run rewoundCalls).cursors.map (fun c => ((c.peek strayEscape).1,
      c.position)) = [(⟨.eof, 6, 6⟩, 6), (⟨.identifier, 4, 5⟩, 3)] := by
  obtain ⟨hanswers, hcursors, -⟩ := cursors_index_stream strayEscape rewoundCalls
  rw [hanswers, hcursors]
  decide +kernel

end MicroCompiler.Token
