import MicroCompiler.Proofs.Errors.Lexical
import MicroCompiler.Proofs.Outline.Reading
import MicroCompiler.Proofs.Sorting.Statement

/-! An outline tells the tree. The line of a node tells its label and its flags, and the depths of
the lines tell which sketches stand below it. Some children may be missing, and nothing marks the
others: an expression below a variable is its initializer, because a type is none; a foreign
function has no body, and any other function has one; a title parts the lists where a node has two
of them. -/

namespace MicroCompiler

namespace Ast

/-! ### Children by label -/

namespace Label

/-- The number of slots of the nodes with this label. -/
def slotCount : Label → Nat
  | .unary _ | .call | .member _ | .pointerType | .const _ | .function _ _ |
      .deferStmt | .expression => 1
  | .binary _ | .subscript | .cast | .var _ | .whileStmt => 2
  | .ifStmt => 3
  | _ => 0

/-- The number of lists of the nodes with this label. -/
def listCount : Label → Nat
  | .call | .file | .struct _ | .block | .definition | .returnStmt => 1
  | .function _ _ | .assignment => 2
  | _ => 0

theorem listCount_le {label : Label} (h : label.isUniform = true) : label.listCount ≤ 1 := by
  cases label <;> simp_all [isUniform, listCount]

end Label

namespace Sketch

variable {label : Label} {flags : Flags} {slots slots' : List (Option Sketch)}
  {lists lists' : List (List Sketch)}

def text : Sketch → String
  | .entry text _ => text

/-- The sketch begins with the line of an expression. -/
def ShowsExpression (s : Sketch) : Prop :=
  ∃ label flags, Label.Proper label flags ∧ label.isExpression = true ∧
    s.text.toList = label.line flags

/-- What the slots and the lists of a node with the label and the flags may give. -/
inductive Fits (flags : Flags) : Label → List (Option Sketch) → List (List Sketch) → Prop
  | var {name : String} {type initializer : Option Sketch} (htype : ∀ s ∈ type, ¬ s.ShowsExpression)
    (hinitializer : ∀ s ∈ initializer, s.ShowsExpression) :
    Fits flags (.var name) [type, initializer] []
  | function {name library : Option String} {body : Option Sketch} {params returns : List Sketch}
    (hbody : body = none ↔ flags.foreign = true) (hparams : ∀ s ∈ params, s.text ≠ "Returns") :
    Fits flags (.function name library) [body] [params, returns]
  | ifStmt {condition consequent : Sketch} {alternative : Option Sketch} :
    Fits flags .ifStmt [some condition, some consequent, alternative] []
  | assignment {targets values : List Sketch} : Fits flags .assignment [] [targets, values]
  | uniform {label : Label} {filled : List Sketch} {lists : List (List Sketch)}
    (huniform : label.isUniform = true) (hfilled : filled.length = label.slotCount)
    (hlists : lists.length = label.listCount) : Fits flags label (filled.map some) lists

/-! ### Telling children apart -/

theorem pair_inj {type type' initializer initializer' : Option Sketch}
    (htype : ∀ s ∈ type, ¬ s.ShowsExpression) (htype' : ∀ s ∈ type', ¬ s.ShowsExpression)
    (hinitializer : ∀ s ∈ initializer, s.ShowsExpression)
    (hinitializer' : ∀ s ∈ initializer', s.ShowsExpression)
    (h : [type, initializer].reduceOption = [type', initializer'].reduceOption) :
    type = type' ∧ initializer = initializer' := by
  cases type <;> cases type' <;> cases initializer <;> cases initializer' <;> simp_all
    [List.reduceOption]

theorem titled_nil (title : String) : titled title [] = [] := rfl

theorem titled_cons (title : String) (s : Sketch) (rest : List Sketch) :
    titled title (s :: rest) = [.entry title (s :: rest)] := rfl

/-- A list ends where a title stands that none of its members has. -/
theorem append_titled_inj {title : String} {ss ss' below below' : List Sketch}
    (hss : ∀ s ∈ ss, s.text ≠ title) (hss' : ∀ s ∈ ss', s.text ≠ title)
    (h : ss ++ titled title below = ss' ++ titled title below') :
    ss = ss' ∧ below = below' := by
  cases below with
  | nil =>
    cases below' with
    | nil => exact ⟨by simpa [titled_nil] using h, rfl⟩
    | cons s' rest' =>
      rw [titled_nil, titled_cons, List.append_nil] at h
      exact absurd rfl (hss (.entry title (s' :: rest')) (by simp [h]))
  | cons s rest =>
    cases below' with
    | nil =>
      rw [titled_nil, titled_cons, List.append_nil] at h
      exact absurd rfl (hss' (.entry title (s :: rest)) (by simp [← h]))
    | cons s' rest' =>
      rw [titled_cons, titled_cons] at h
      obtain ⟨hequal, hbelow⟩ := List.append_inj' h rfl
      exact ⟨hequal, by simpa using hbelow⟩

theorem titled_injective {title : String} {below below' : List Sketch}
    (h : titled title below = titled title below') :
    below = below' := by
  have happend : [] ++ titled title below = [] ++ titled title below' := h
  exact (append_titled_inj (by simp) (by simp) happend).2

theorem toList_inj {last last' : Option Sketch} (h : last.toList = last'.toList) :
    last = last' := by
  cases last <;> cases last' <;> simp_all

/-- It is known whether there is a last sketch. -/
theorem append_toList_inj {ss ss' : List Sketch} {last last' : Option Sketch}
    (hnone : last = none ↔ last' = none) (h : ss ++ last.toList = ss' ++ last'.toList) :
    ss = ss' ∧ last = last' := by
  have hlength : last.toList.length = last'.toList.length := by
    cases last <;> cases last' <;> simp_all
  obtain ⟨hss, hlast⟩ := List.append_inj' h hlength
  exact ⟨hss, toList_inj hlast⟩

theorem flatten_inj (hlength : lists.length = lists'.length) (hle : lists.length ≤ 1)
    (h : lists.flatten = lists'.flatten) : lists = lists' := by
  cases lists with
  | nil => exact (List.length_eq_zero_iff.mp hlength.symm).symm
  | cons ss rest =>
    obtain rfl : rest = [] := by simpa using hle
    obtain ⟨ss', rfl⟩ := List.length_eq_one_iff.mp hlength.symm
    simpa using h

/-- What stands below a line tells what the slots and the lists of the node gave. -/
theorem Fits.injective (h : Fits flags label slots lists) (h' : Fits flags label slots' lists')
    (hbelow : belowLabel label slots lists = belowLabel label slots' lists') :
    slots = slots' ∧ lists = lists' := by
  cases h with
  | var htype hinitializer =>
    cases h' with
    | var htype' hinitializer' =>
      obtain ⟨rfl, rfl⟩ := pair_inj htype htype' hinitializer hinitializer'
        (List.append_cancel_right hbelow)
      exact ⟨rfl, rfl⟩
    | uniform huniform => cases huniform
  | @function _ _ body params returns hbody hparams =>
    cases h' with
    | @function _ _ body' params' returns' hbody' hparams' =>
      simp only [belowLabel, List.getD_cons_zero, List.getD_cons_succ, List.reduceOption_singleton,
        ← List.append_assoc] at hbelow
      obtain ⟨htitled, rfl⟩ := append_toList_inj (hbody.trans hbody'.symm) hbelow
      obtain ⟨rfl, rfl⟩ := append_titled_inj hparams hparams' htitled
      exact ⟨rfl, rfl⟩
    | uniform huniform => cases huniform
  | ifStmt =>
    cases h' with
    | ifStmt =>
      obtain ⟨hfilled, htitled⟩ := List.append_inj hbelow rfl
      obtain ⟨rfl, hrest⟩ := List.cons.inj hfilled
      obtain ⟨rfl, -⟩ := List.cons.inj hrest
      have halternative := titled_injective htitled
      simp only [List.drop_succ_cons, List.drop_zero, List.reduceOption_singleton] at halternative
      obtain rfl := toList_inj halternative
      exact ⟨rfl, rfl⟩
    | uniform huniform => cases huniform
  | assignment =>
    cases h' with
    | assignment =>
      obtain ⟨rfl, hvalues⟩ := List.append_inj' hbelow rfl
      obtain ⟨-, rfl⟩ := Sketch.entry.inj (List.cons.inj hvalues).1
      exact ⟨rfl, rfl⟩
    | uniform huniform => cases huniform
  | uniform huniform hfilled hlists =>
    cases h' with
    | uniform _ hfilled' hlists' =>
      rw [belowLabel_uniform huniform, belowLabel_uniform huniform, reduceOption_map_some,
        reduceOption_map_some] at hbelow
      obtain ⟨rfl, hflatten⟩ := List.append_inj hbelow (hfilled.trans hfilled'.symm)
      exact ⟨rfl, flatten_inj (hlists.trans hlists'.symm) (hlists ▸ Label.listCount_le huniform)
        hflatten⟩
    | _ => cases huniform

end Sketch

/-! ### Telling nodes apart -/

/-- A sketch shows nothing of a node but its label and its flags. -/
theorem Sketch.ofNode_congr {n n' : Node} {src src' : Source}
    (hlabel : n.kind.label src = n'.kind.label src')
    (hflags : n.flags = n'.flags) : Sketch.ofNode src n = Sketch.ofNode src' n' := by
  have hheadline : n.headline src = n'.headline src' := by
    rw [← String.toList_inj, n.headline_toList, n'.headline_toList, hlabel, hflags]
  funext slots lists
  rw [Sketch.ofNode, Sketch.ofNode, hheadline, hlabel]

theorem NodeKind.not_isExpression_label {kind : NodeKind} {src : Source}
    (h : .type ∈ kind.categories) : (kind.label src).isExpression = false := by
  cases kind <;> simp_all [Label.isExpression, NodeKind.label]

theorem Node.headline_ne_returns {n : Node} {src : Source} (h : .var ∈ n.kind.categories) :
    n.headline src ≠ "Returns" := by
  obtain ⟨kind, span, flags, serial⟩ := n
  intro htitle
  have hline := Node.headline_toList ⟨kind, span, flags, serial⟩ src
  rw [htitle] at hline
  cases kind with
  | var => simp [NodeKind.label, Label.line, Label.word] at hline
  | _ => simp at h

namespace Pool

variable {q q' : Pool} {src src' : Source} {levels levels' : Nat} {id : NodeId} {c : Category}
  {sketch : Sketch} {n n' : Node} {slots slots' : List (Option Sketch)}
  {lists lists' : List (List Sketch)}

/-- The nodes of the pool hold what they should, and their lines show what they are. -/
structure Readable (q : Pool) (src : Source) : Prop where
  sorted : ∀ n ∈ q.nodes, q.WellSorted n.kind n.flags
  proper : ∀ n ∈ q.nodes, (n.kind.label src).Proper n.flags

/-- A sketch begins with the line of its node. -/
theorem Is.headline (h : q.Is id c) (hsketch : q.sketchFrom src (some id) levels = .ok sketch) :
    ∃ n ∈ q.nodes, c ∈ n.kind.categories ∧ sketch.text = n.headline src := by
  obtain ⟨m, hm, hc⟩ := h
  cases levels with
  | zero => cases hsketch
  | succ levels =>
    obtain ⟨n, slots, lists, hn, -, rfl⟩ := foldFrom_succ.mp hsketch
    obtain rfl := Except.ok.inj ((get_eq hm).symm.trans hn)
    exact ⟨m, mem_of_get hn, hc, rfl⟩

/-- What is read from a list is read from its nodes. -/
theorem Lists.exists_of_mem {read : Slot → Except Fault β} {range : NodeRange} {bs : List β} {b : β}
    (h : q.Lists range c) (hread : q.readList read range = .ok bs) (hb : b ∈ bs) :
    ∃ id, q.Is id c ∧ read (some id) = .ok b := by
  obtain ⟨ids, hlist, hids⟩ := h
  obtain ⟨slots, hslots, hread⟩ := bind_eq_ok.mp hread
  obtain rfl := Except.ok.inj (hlist.symm.trans hslots)
  obtain ⟨s, hs, hb⟩ := exists_of_mem_right hread hb
  obtain ⟨id, hid, rfl⟩ := List.mem_map.mp hs
  exact ⟨id, hids id hid, hb⟩

namespace Readable

theorem showsExpression (h : q.Readable src) (hid : q.Is id .expression)
    (hsketch : q.sketchFrom src (some id) levels = .ok sketch) : sketch.ShowsExpression := by
  obtain ⟨n, hn, hc, htext⟩ := hid.headline hsketch
  exact ⟨n.kind.label src, n.flags, h.proper n hn, NodeKind.isExpression_label
    hc, by rw [htext, n.headline_toList]⟩

theorem not_showsExpression (h : q.Readable src) (hid : q.Is id .type)
    (hsketch : q.sketchFrom src (some id) levels = .ok sketch) : ¬ sketch.ShowsExpression := by
  rintro ⟨label, flags, hproper, hexpression, hline⟩
  obtain ⟨n, hn, hc, htext⟩ := hid.headline hsketch
  rw [htext, n.headline_toList] at hline
  obtain ⟨hlabel, -⟩ := Label.line_injective (h.proper n hn) hproper hline
  rw [← hlabel, NodeKind.not_isExpression_label hc] at hexpression
  cases hexpression

/-- The slots and the lists of a node give what fits its label and its flags. -/
theorem fits (h : q.Readable src) (hn : n ∈ q.nodes)
    (hreads : q.Reads (Sketch.ofNode src) levels n.kind slots lists) :
    Sketch.Fits n.flags (n.kind.label src) slots lists := by
  have hsorted := h.sorted n hn
  obtain ⟨kind, span, flags, serial⟩ := n
  cases kind with
  | var name type initializer =>
    obtain ⟨type', initializer', htype, hinitializer, rfl, rfl⟩ := hreads.var
    refine .var (fun s hs => ?_) fun s hs => ?_
    · obtain rfl : type' = some s := hs
      obtain ⟨id, rfl, hread⟩ := ifFilled_eq_some.mp htype
      exact h.not_showsExpression (hsorted.children (.type, some id) (by simp) id rfl) hread
    · obtain rfl : initializer' = some s := hs
      obtain ⟨id, rfl, hread⟩ := ifFilled_eq_some.mp hinitializer
      exact h.showsExpression (hsorted.children (.expression, some id) (by simp) id rfl) hread
  | function name params returns body library =>
    obtain ⟨body', params', returns', hbody, hparams, hreturns, rfl, rfl⟩ := hreads.function
    have hnone : body' = none ↔ body = none := by
      constructor
      · rintro rfl
        exact ifFilled_eq_none.mp hbody
      · rintro rfl
        exact (Except.ok.inj hbody).symm
    refine .function (hnone.trans (hsorted.function _ _ _ _ _ rfl).1) fun s hs => ?_
    obtain ⟨id, hid, hread⟩ := (hsorted.lists (.var, params) (by simp)).exists_of_mem hparams hs
    obtain ⟨m, -, hc, htext⟩ := hid.headline hread
    rw [htext]
    exact Node.headline_ne_returns hc
  | ifStmt condition consequent alternative =>
    obtain ⟨_, _, alternative', hcondition, hconsequent, -, rfl, rfl⟩ := hreads.ifStmt
    have hrequired := hsorted.required
    obtain ⟨condition', -, rfl⟩ := ifFilled_of_ne_none (fun h => hrequired (by simp [← h]))
      hcondition
    obtain ⟨consequent', -, rfl⟩ := ifFilled_of_ne_none (fun h => hrequired (by simp [← h]))
      hconsequent
    exact .ifStmt
  | assignment targets values =>
    obtain ⟨targets', values', -, -, rfl, rfl⟩ := hreads.assignment
    exact .assignment
  | _ =>
    obtain ⟨filled, hfilled, rfl⟩ := mapM_ifFilled hsorted.required hreads.slots
    exact .uniform rfl (mapM_eq_ok.mp hfilled).length_eq.symm
      (mapM_eq_ok.mp hreads.lists).length_eq.symm

/-- The sketch of a node tells the node, and what its slots and its lists gave. -/
theorem ofNode_inj (h : q.Readable src) (h' : q'.Readable src') (hn : n ∈ q.nodes)
    (hn' : n' ∈ q'.nodes) (hreads : q.Reads (Sketch.ofNode src) levels n.kind slots lists)
    (hreads' : q'.Reads (Sketch.ofNode src') levels' n'.kind slots' lists')
    (hsketch : Sketch.ofNode src n slots lists = Sketch.ofNode src' n' slots' lists') :
    slots = slots' ∧ lists = lists' ∧ n.kind.label src = n'.kind.label src' ∧
    n.flags = n'.flags := by
  obtain ⟨hheadline, hbelow⟩ := Sketch.entry.inj hsketch
  have hline := congrArg String.toList hheadline
  rw [n.headline_toList, n'.headline_toList] at hline
  obtain ⟨hlabel, hflags⟩ := Label.line_injective (h.proper n hn) (h'.proper n' hn') hline
  have hfits := h'.fits hn' hreads'
  rw [← hlabel, ← hflags] at hfits
  rw [← hlabel] at hbelow
  obtain ⟨hslots, hlists⟩ := (h.fits hn hreads).injective hfits hbelow
  exact ⟨hslots, hlists, hlabel, hflags⟩

/-- The text of a sketch. -/
theorem exists_sketch (h : q.Readable src) (hlines : ∃ text, q.outline src (some id) = .ok text) :
    ∃ sketch, q.sketchFrom src (some id) (q.size + 1) = .ok sketch ∧
      (∀ l ∈ sketch.lines 0, Label.FillsLine l.text.toList) ∧
      q.outline src (some id) = .ok (String.join ((sketch.lines 0).map OutlineLine.render)) := by
  obtain ⟨text, htext⟩ := hlines
  obtain ⟨ls, hls, -⟩ := map_eq_ok.mp htext
  have hlists : ∀ n ∈ q.nodes, ∀ range ∈ n.kind.ranges, ∃ slots, q.list range = .ok slots := by
    intro n hn range hrange
    rw [← n.kind.childLists_ranges] at hrange
    obtain ⟨x, hx, rfl⟩ := List.mem_map.mp hrange
    obtain ⟨ids, hlist, -⟩ := (h.sorted n hn).lists x hx
    exact ⟨_, hlist⟩
  obtain ⟨sketch, hsketch⟩ := exists_foldFrom (Sketch.ofNode src) hlists hls
  have hlines : q.linesFrom src 0 (some id) (q.size + 1) = .ok (sketch.lines 0) :=
    linesFrom_of_sketchFrom (fun n hn => (h.sorted n hn).required) hsketch
  obtain rfl := Except.ok.inj (hlines.symm.trans hls)
  refine ⟨sketch, hsketch, fillsLine_of_linesFrom (fun n hn => ?_) hlines, ?_⟩
  · rw [n.headline_toList]
    exact (h.proper n hn).fillsLine
  · rw [outline, lines, hlines]
    rfl

end Readable

end Pool

end Ast

/-! ### Parsed files -/

namespace Grammar

open Ast (Pool Sketch Tree OutlineLine)

variable {src src' : Source} {fileIndex fileIndex' : Nat} {parsed parsed' : Parsed}

theorem parseFile_sorted (h : parseFile src fileIndex = .ok parsed) : parsed.pool.Sorted [] := by
  obtain ⟨st, hfile, hpool⟩ := run_eq_ok h
  have hempty : (Pool.empty fileIndex).Sorted [] := by
    intro id n hn
    simp [Pool.empty] at hn
  obtain ⟨t, q, hstands, hsorted, -⟩ := file_sorts _ _ (.start src _) hempty _ _ hfile
  rwa [← hpool, hstands.pool]

theorem parseFile_readable (h : parseFile src fileIndex = .ok parsed) (hwhole : src.IsWhole) :
    parsed.pool.Readable src := by
  have hsorted : ∀ n ∈ parsed.pool.nodes, parsed.pool.WellSorted n.kind n.flags ∧
      n.kind.isNamed = true := by
    intro n hn
    obtain ⟨i, hi⟩ := Array.getElem?_of_mem hn
    obtain ⟨hw, hnamed⟩ := parseFile_sorted h ⟨i⟩ n hi
    exact ⟨hw, hnamed (by simp)⟩
  refine ⟨fun n hn => (hsorted n hn).1, fun n hn => ?_⟩
  exact (hsorted n hn).1.proper (parseFile_verbatim h n hn) hwhole (hsorted n hn).2

theorem parseFile_sketch (h : parseFile src fileIndex = .ok parsed) (hwhole : src.IsWhole) :
    ∃ sketch, parsed.pool.sketchFrom src (some parsed.root) (parsed.pool.size + 1) = .ok sketch ∧
      (∀ l ∈ sketch.lines 0, Ast.Label.FillsLine l.text.toList) ∧
        parsed.pool.outline src (some parsed.root) =
        .ok (String.join ((sketch.lines 0).map OutlineLine.render)) := by
  have htree := (parseFile_rooted h).isTree
  exact (parseFile_readable h hwhole).exists_sketch (htree.outline_ok htree.top.1)

/-- The outlines of two files without fractions are one text just if their trees are one tree, apart
from positions. In a tree a number stands with its value. -/
theorem outline_unambiguous (h : parseFile src fileIndex = .ok parsed)
    (h' : parseFile src' fileIndex' = .ok parsed')
    (hwhole : src.IsWhole) (hwhole' : src'.IsWhole) :
    (∃ text, parsed.pool.outline src (some parsed.root) = .ok text ∧
      parsed'.pool.outline src' (some parsed'.root) = .ok text) ↔
    ∃ tree, parsed.pool.tree src (some parsed.root) = .ok tree ∧
      parsed'.pool.tree src' (some parsed'.root) = .ok tree := by
  obtain ⟨sketch, hsketch, hfills, houtline⟩ := parseFile_sketch h hwhole
  obtain ⟨sketch', hsketch', hfills', houtline'⟩ := parseFile_sketch h' hwhole'
  constructor
  · rintro ⟨text, htext, htext'⟩
    have hjoin := Except.ok.inj ((houtline.symm.trans htext).trans (htext'.symm.trans houtline'))
    obtain rfl := Sketch.lines_injective (Ast.render_injective hfills hfills' hjoin)
    refine Pool.foldFrom_meet ?_ hsketch hsketch'
    intro _ _ n n' slots slots' lists lists' hn hn' hreads hreads' hequal
    obtain ⟨hslots, hlists, hlabel, hflags⟩ :=
      (parseFile_readable h hwhole).ofNode_inj (parseFile_readable h' hwhole') hn
        hn' hreads hreads' hequal
    exact ⟨hslots, hlists, by funext; rw [Tree.ofNode, Tree.ofNode, hlabel, hflags]⟩
  · rintro ⟨tree, htree, htree'⟩
    have hmeet : ∃ s, parsed.pool.sketchFrom src (some parsed.root) (parsed.pool.size + 1) = .ok s ∧
        parsed'.pool.sketchFrom src' (some parsed'.root) (parsed'.pool.size + 1) = .ok s := by
      refine Pool.foldFrom_meet ?_ htree htree'
      intro _ _ n n' slots slots' lists lists' _ _ _ _ hequal
      obtain ⟨hlabel, hflags, hslots, hlists⟩ := Tree.node.inj hequal
      exact ⟨hslots, hlists, Sketch.ofNode_congr hlabel hflags⟩
    obtain ⟨s, hs, hs'⟩ := hmeet
    obtain rfl := Except.ok.inj (hsketch.symm.trans hs)
    obtain rfl := Except.ok.inj (hsketch'.symm.trans hs')
    exact ⟨_, houtline, houtline'⟩

theorem outline_of_toOption (src : Source) (fileIndex : Nat) (text : String)
    (h : ((parseFile src fileIndex).toOption.bind fun parsed =>
      (parsed.pool.outline src (some parsed.root)).toOption) = some text) :
    ∃ parsed, parseFile src fileIndex = .ok parsed ∧
    parsed.pool.outline src (some parsed.root) = .ok text := by
  simpa [Option.bind_eq_some_iff, toOption_eq_some] using h

def declarationsOutline : String :=
  "File\n  Function f #foreign \"c\" ...\n    Var a\n      Type int\n    Returns\n" ++
    "      Type int\n  VariableDefinition\n    Var x\n" ++
    "      StringLiteral \"\\\" (paren)\" (paren)\n    Var y\n      NumberLiteral 7\n"

/-- The second text has blanks, a comment and parentheses that the first one has not. A literal ends
like a line with a mark, and each variable has one of the two children that it may have. -/
theorem outline_unambiguous_layout : ∃ src src' parsed parsed' tree,
    src = .ofString "f::func(a:int,...)int#foreign \"c\";x,y:=(\"\\\" (paren)\"),7;" ∧
    src' = .ofString
    "// é\nf :: func(a: int, ...) (int) #foreign \"c\";\n\nx, y := (\"\\\" (paren)\"), 7;\n" ∧
    parseFile src 0 = .ok parsed ∧ parseFile src' 1 = .ok parsed' ∧ src.IsWhole ∧ src'.IsWhole ∧
    parsed.pool.tree src (some parsed.root) = .ok tree ∧
    parsed'.pool.tree src' (some parsed'.root) = .ok tree := by
  obtain ⟨src, hsrc⟩ : ∃ src, src = Source.ofString
    "f::func(a:int,...)int#foreign \"c\";x,y:=(\"\\\" (paren)\"),7;" := ⟨_, rfl⟩
  obtain ⟨src', hsrc'⟩ : ∃ src, src = Source.ofString
    "// é\nf :: func(a: int, ...) (int) #foreign \"c\";\n\nx, y := (\"\\\" (paren)\"), 7;\n" :=
    ⟨_, rfl⟩
  obtain ⟨parsed, hparsed, htext⟩ :=
    outline_of_toOption src 0 declarationsOutline (by rw [hsrc]; decide +kernel)
  obtain ⟨parsed', hparsed', htext'⟩ :=
    outline_of_toOption src' 1 declarationsOutline (by rw [hsrc']; decide +kernel)
  have hwhole : src.IsWhole := by
    rw [hsrc]
    decide +kernel
  have hwhole' : src'.IsWhole := by
    rw [hsrc']
    decide +kernel
  obtain ⟨tree, htree, htree'⟩ := (outline_unambiguous hparsed hparsed' hwhole hwhole').mp
    ⟨_, htext, htext'⟩
  exact ⟨src, src', parsed, parsed', tree, hsrc, hsrc', hparsed, hparsed', hwhole, hwhole', htree,
    htree'⟩

/-- The texts of the numbers, in the order of the nodes. -/
def numerals (src : Source) (q : Pool) : List String :=
  (q.nodes.toList.filter (·.kind.label src matches .number _)).map (src.text ·.span)

/-- An outline does not tell in how many digits a number was written. -/
theorem outline_hides_zeros :
    ¬ ∀ (src src' : Source) (parsed parsed' : Parsed), parseFile src 0 = .ok parsed →
      parseFile src' 0 = .ok parsed' → src.IsWhole → src'.IsWhole →
      (∃ text, parsed.pool.outline src (some parsed.root) = .ok text ∧
        parsed'.pool.outline src' (some parsed'.root) = .ok text) →
      numerals src parsed.pool = numerals src' parsed'.pool := by
  intro hall
  obtain ⟨parsed, hparsed, htext⟩ := outline_of_toOption (.ofString "x::007;") 0
    "File\n  Const x\n    NumberLiteral 7\n" (by decide +kernel)
  obtain ⟨parsed', hparsed', htext'⟩ := outline_of_toOption (.ofString "x::7;") 0
    "File\n  Const x\n    NumberLiteral 7\n" (by decide +kernel)
  have hequal := hall _ _ parsed parsed' hparsed hparsed' (by decide +kernel) (by decide +kernel)
    ⟨_, htext, htext'⟩
  have hthree : (parseFile (.ofString "x::007;") 0).toOption.map
    (numerals (.ofString "x::007;") ·.pool) =
      some ["007"] := by decide +kernel
  have hone : (parseFile (.ofString "x::7;") 0).toOption.map (numerals (.ofString "x::7;") ·.pool) =
      some ["7"] := by decide +kernel
  simp only [hparsed, hparsed', Except.toOption, Option.map_some, Option.some.injEq] at hthree hone
  rw [hthree, hone] at hequal
  exact absurd hequal (by decide)

end Grammar

end MicroCompiler
