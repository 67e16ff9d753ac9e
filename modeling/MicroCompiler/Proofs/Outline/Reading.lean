import MicroCompiler.Proofs.Ast.Tree
import MicroCompiler.Proofs.Outline.Fold
import MicroCompiler.Proofs.Outline.Sketch

/-! The sketch of an outline. It is read from the leaves up, and its lines are those of the outline.
An outline visits every child of a node, so wherever it has lines there is a sketch. -/

namespace MicroCompiler

namespace Ast

/-! ### Parts of a node -/

namespace NodeKind

variable {kind : NodeKind}

/-- The outline visits every slot that is filled. -/
theorem exists_child_mem_parts {id : NodeId} (h : some id ∈ kind.slots) :
    ∃ deeper, .child deeper (some id) ∈ kind.parts := by
  cases kind with
  | var name type initializer =>
    simp only [slots, List.mem_cons, List.not_mem_nil, or_false] at h
    rcases h with rfl | rfl
    · exact ⟨0, by simp [parts, ifPresent]⟩
    · exact ⟨0, by simp [parts, ifPresent]⟩
  | function name params returns body library =>
    obtain rfl := List.mem_singleton.mp h
    exact ⟨0, by simp [parts, ifPresent]⟩
  | ifStmt condition consequent alternative =>
    simp only [slots, List.mem_cons, List.not_mem_nil, or_false] at h
    rcases h with rfl | rfl | rfl
    · exact ⟨0, by simp [parts]⟩
    · exact ⟨0, by simp [parts]⟩
    · exact ⟨1, by simp [parts]⟩
  | _ => exact ⟨0, by simp_all [parts]⟩

/-- The outline visits every list that is not empty. -/
theorem exists_children_mem_parts {range : NodeRange} (h : range ∈ kind.ranges)
    (hempty : range.length ≠ 0) : ∃ deeper, .children deeper range ∈ kind.parts := by
  cases kind with
  | function name params returns body library =>
    simp only [ranges, List.mem_cons, List.not_mem_nil, or_false] at h
    rcases h with rfl | rfl
    · exact ⟨0, by simp [parts]⟩
    · exact ⟨1, by simp [parts, hempty]⟩
  | assignment targets values =>
    simp only [ranges, List.mem_cons, List.not_mem_nil, or_false] at h
    rcases h with rfl | rfl
    · exact ⟨0, by simp [parts]⟩
    · exact ⟨1, by simp [parts]⟩
  | _ => exact ⟨0, by simp_all [parts]⟩

/-- The titles fit into lines of their own. -/
theorem fillsLine_title {text : String} (h : .title text ∈ kind.parts) :
    Label.FillsLine text.toList := by
  have htitle : text = "Returns" ∨ text = "Else" ∨ text = "=" := by
    cases kind <;> grind [parts, mem_ifPresent]
  rcases htitle with rfl | rfl | rfl
  · exact ⟨by decide, by decide⟩
  · exact ⟨by decide, by decide⟩
  · exact ⟨by decide, by decide⟩

end NodeKind

/-! ### Sketches -/

/-- Whether the nodes with this label have no slot that may be empty, and no titles below them. -/
def Label.isUniform : Label → Bool
  | .var _ | .function _ _ | .ifStmt | .assignment => false
  | _ => true

namespace Sketch

/-- A title with what stands below it, if there is something. -/
def titled (title : String) (below : List Sketch) : List Sketch :=
  if below.isEmpty then [] else [.entry title below]

/-- What stands below the line of a node, from what its slots and its lists give. -/
def belowLabel (label : Label) (slots : List (Option Sketch)) (lists : List (List Sketch)) :
    List Sketch :=
  match label with
  | .function _ _ => lists.getD 0 [] ++ (titled "Returns" (lists.getD 1 []) ++ slots.reduceOption)
  | .ifStmt => (slots.take 2).reduceOption ++ titled "Else" (slots.drop 2).reduceOption
  | .assignment => lists.getD 0 [] ++ [.entry "=" (lists.getD 1 [])]
  | _ => slots.reduceOption ++ lists.flatten

theorem belowLabel_uniform {label : Label} {slots : List (Option Sketch)}
    {lists : List (List Sketch)} (h : label.isUniform = true) :
    belowLabel label slots lists = slots.reduceOption ++ lists.flatten := by
  cases label <;> first | rfl | cases h

theorem reduceOption_map_some (ss : List Sketch) : (ss.map some).reduceOption = ss := by
  simp [List.reduceOption]

/-- The sketch of a node, from what its slots and its lists give. -/
def ofNode (src : Source) (n : Node) (slots : List (Option Sketch)) (lists : List (List Sketch)) :
    Sketch :=
  .entry (n.headline src) (belowLabel (n.kind.label src) slots lists)

end Sketch

namespace Pool

/-- The sketch of the subtree in a slot. -/
def sketchFrom (q : Pool) (src : Source) : Slot → Nat → Except Fault Sketch :=
  q.foldFrom (Sketch.ofNode src)

/-! ### Lines of a sketch -/

/-- The lines of what a node at a depth holds. -/
def partLines (q : Pool) (src : Source) (depth levels : Nat) :
    NodeKind.Part → Except Fault (List OutlineLine)
  | .title text => .ok [⟨depth + 1, text⟩]
  | .child deeper s => q.linesFrom src (depth + 1 + deeper) s levels
  | .children deeper range => do
    let slots ← q.list range
    let groups ← slots.mapM fun s => q.linesFrom src (depth + 1 + deeper) s levels
    pure groups.flatten

variable {q : Pool} {src : Source} {depth levels : Nat} {slot : Slot} {ls : List OutlineLine}

theorem linesFrom_succ : q.linesFrom src depth slot (levels + 1) = .ok ls ↔ ∃ n groups,
    q.get slot = .ok n ∧
      n.kind.parts.mapM (q.partLines src depth levels) = .ok groups ∧
      ⟨depth, n.headline src⟩ :: groups.flatten = ls := by
  have hunfold : q.linesFrom src depth slot (levels + 1) = (do
      let node ← q.get slot
      let below ← node.kind.parts.mapM (q.partLines src depth levels)
      pure (⟨depth, node.headline src⟩ :: below.flatten)) := rfl
  simp only [hunfold, bind_eq_ok, pure, Except.pure, Except.ok.injEq]
  constructor
  · rintro ⟨n, hn, groups, hgroups, hls⟩
    exact ⟨n, groups, hn, hgroups, hls⟩
  · rintro ⟨n, groups, hn, hgroups, hls⟩
    exact ⟨n, hn, groups, hgroups, hls⟩

theorem partLines_children {deeper : Nat} {range : NodeRange} :
    q.partLines src depth levels (.children deeper range) = .ok ls ↔
      ∃ groups, q.readList (fun s => q.linesFrom src (depth + 1 + deeper) s levels) range =
        .ok groups ∧ groups.flatten = ls := by
  simp only [partLines, readList, bind_eq_ok, pure, Except.pure, Except.ok.injEq]
  constructor
  · rintro ⟨slots, hslots, groups, hgroups, hls⟩
    exact ⟨groups, ⟨slots, hslots, hgroups⟩, hls⟩
  · rintro ⟨groups, ⟨slots, hslots, hgroups⟩, hls⟩
    exact ⟨slots, hslots, groups, hgroups, hls⟩

/-- The parts have the lines. -/
def Prints (q : Pool) (src : Source) (depth levels : Nat) (parts : List NodeKind.Part)
    (ls : List OutlineLine) : Prop :=
  ∃ groups, parts.mapM (q.partLines src depth levels) = .ok groups ∧ groups.flatten = ls

theorem prints_nil : q.Prints src depth levels [] [] := ⟨[], rfl, rfl⟩

theorem Prints.append {parts more : List NodeKind.Part} {ls ls' : List OutlineLine}
    (h : q.Prints src depth levels parts ls) (hmore : q.Prints src depth levels more ls') :
    q.Prints src depth levels (parts ++ more) (ls ++ ls') := by
  obtain ⟨groups, hgroups, rfl⟩ := h
  obtain ⟨groups', hgroups', rfl⟩ := hmore
  refine ⟨groups ++ groups', ?_, List.flatten_append⟩
  rw [List.mapM_append, hgroups, hgroups']
  rfl

theorem prints_single {part : NodeKind.Part} (h : q.partLines src depth levels part = .ok ls) :
    q.Prints src depth levels [part] ls :=
  ⟨[ls], mapM_eq_ok.mpr (.cons h .nil), by simp⟩

theorem Prints.append_all {parts more : List NodeKind.Part} {ss ss' : List Sketch}
    (h : q.Prints src depth levels parts (Sketch.linesAll (depth + 1) ss))
    (hmore : q.Prints src depth levels more (Sketch.linesAll (depth + 1) ss')) :
    q.Prints src depth levels (parts ++ more) (Sketch.linesAll (depth + 1) (ss ++ ss')) := by
  rw [Sketch.linesAll_append]
  exact h.append hmore

theorem prints_title {title : String} {parts : List NodeKind.Part} {sketches : List Sketch}
    (h : q.Prints src depth levels parts (Sketch.linesAll (depth + 1 + 1) sketches)) :
    q.Prints src depth levels (.title title :: parts)
    (Sketch.linesAll (depth + 1) [.entry title sketches]) := by
  have htitle : q.Prints src depth levels [.title title] [⟨depth + 1, title⟩] := prints_single rfl
  rw [Sketch.linesAll, Sketch.lines, Sketch.linesAll, List.append_nil]
  exact htitle.append h

section

variable (hsketch : ∀ depth s sketch, q.sketchFrom src s levels = .ok sketch →
  q.linesFrom src depth s levels = .ok (sketch.lines depth))

include hsketch

theorem prints_child (deeper : Nat) {s : Slot} {sketch : Sketch}
    (h : q.sketchFrom src s levels = .ok sketch) :
    q.Prints src depth levels [.child deeper s]
    (Sketch.linesAll (depth + 1 + deeper) [sketch]) := by
  rw [Sketch.linesAll, Sketch.linesAll, List.append_nil]
  exact prints_single (hsketch _ s sketch h)

theorem prints_children (deeper : Nat) {range : NodeRange} {sketches : List Sketch}
    (h : q.readList (fun s => q.sketchFrom src s levels) range = .ok sketches) :
    q.Prints src depth levels [.children deeper range]
    (Sketch.linesAll (depth + 1 + deeper) sketches) := by
  obtain ⟨slots, hslots, hsketches⟩ := bind_eq_ok.mp h
  refine prints_single (partLines_children.mpr ⟨sketches.map (Sketch.lines (depth + 1 + deeper)),
    ?_, ?_⟩)
  · refine bind_eq_ok.mpr ⟨slots, hslots, mapM_eq_ok.mpr ?_⟩
    rw [List.forall₂_map_right_iff]
    exact (mapM_eq_ok.mp hsketches).imp fun s sketch hs => hsketch _ s sketch hs
  · clear hsketches h
    induction sketches with
    | nil => rfl
    | cons sketch rest ih => rw [List.map_cons, List.flatten_cons, ih, Sketch.linesAll]

theorem prints_ifPresent {s : Slot} {sketch : Option Sketch}
    (h : ifFilled (fun s => q.sketchFrom src s levels) s = .ok sketch) :
    q.Prints src depth levels (NodeKind.ifPresent s)
    (Sketch.linesAll (depth + 1) sketch.toList) := by
  cases sketch with
  | none =>
    obtain rfl := ifFilled_eq_none.mp h
    exact prints_nil
  | some sketch =>
    obtain ⟨id, rfl, hs⟩ := ifFilled_eq_some.mp h
    exact prints_child hsketch 0 hs

theorem prints_slots {slots : List Slot} {sketches : List Sketch}
    (h : slots.mapM (fun s => q.sketchFrom src s levels) = .ok sketches) :
    q.Prints src depth levels (slots.map (.child 0)) (Sketch.linesAll (depth + 1) sketches) := by
  rw [mapM_eq_ok] at h
  induction h with
  | nil => exact prints_nil
  | cons hs _ ih => exact (prints_child hsketch 0 hs).append_all ih

theorem prints_ranges {ranges : List NodeRange} {lists : List (List Sketch)}
    (h : ranges.mapM (q.readList fun s => q.sketchFrom src s levels) = .ok lists) :
    q.Prints src depth levels (ranges.map (.children 0))
    (Sketch.linesAll (depth + 1) lists.flatten) := by
  rw [mapM_eq_ok] at h
  induction h with
  | nil => exact prints_nil
  | cons hlist _ ih => exact (prints_children hsketch 0 hlist).append_all ih

/-- What a node holds has the lines of the sketches below it. -/
theorem prints_parts {kind : NodeKind} {slots : List (Option Sketch)} {lists : List (List Sketch)}
    (hrequired : none ∉ kind.required)
    (hreads : q.Reads (Sketch.ofNode src) levels kind slots lists) :
    q.Prints src depth levels kind.parts
      (Sketch.linesAll (depth + 1) (Sketch.belowLabel (kind.label src) slots lists)) := by
  cases kind with
  | var name type initializer =>
    obtain ⟨type', initializer', htype, hinitializer, rfl, rfl⟩ := hreads.var
    have hbelow : q.Prints src depth levels (NodeKind.ifPresent type ++
      NodeKind.ifPresent initializer)
        (Sketch.linesAll (depth + 1) (type'.toList ++ initializer'.toList)) :=
      (prints_ifPresent hsketch htype).append_all (prints_ifPresent hsketch hinitializer)
    cases type' <;> cases initializer' <;> exact hbelow
  | function name params returns body library =>
    obtain ⟨body', params', returns', hbody, hparams, hreturns, rfl, rfl⟩ := hreads.function
    have hlength := length_of_readList hreturns
    have htitled : q.Prints src depth levels
        (if returns.length = 0 then [] else [.title "Returns", .children 1 returns])
        (Sketch.linesAll (depth + 1) (Sketch.titled "Returns" returns')) := by
      cases returns' with
      | nil =>
        rw [← hlength, if_pos List.length_nil]
        exact prints_nil
      | cons sketch rest =>
        rw [← hlength, if_neg (List.cons_ne_nil sketch rest ∘ List.length_eq_zero_iff.mp)]
        exact prints_title (prints_children hsketch 1 hreturns)
    have hbelow := (prints_children hsketch 0 hparams).append_all (htitled.append_all
      (prints_ifPresent hsketch hbody))
    cases body' <;> exact hbelow
  | ifStmt condition consequent alternative =>
    obtain ⟨_, _, alternative', hcondition, hconsequent, halternative, rfl, rfl⟩ := hreads.ifStmt
    obtain ⟨condition', hbefore, rfl⟩ := ifFilled_of_ne_none (fun h => hrequired (by simp [← h]))
      hcondition
    obtain ⟨consequent', hthen, rfl⟩ := ifFilled_of_ne_none (fun h => hrequired (by simp [← h]))
      hconsequent
    have htitled : q.Prints src depth levels (if alternative.isSome then [.title "Else",
      .child 1 alternative] else [])
        (Sketch.linesAll (depth + 1) (Sketch.titled "Else" [alternative'].reduceOption)) := by
      cases alternative' with
      | none =>
        obtain rfl := ifFilled_eq_none.mp halternative
        exact prints_nil
      | some sketch =>
        obtain ⟨id, rfl, hread⟩ := ifFilled_eq_some.mp halternative
        exact prints_title (prints_child hsketch 1 hread)
    exact (prints_child hsketch 0 hbefore).append_all
      ((prints_child hsketch 0 hthen).append_all htitled)
  | assignment targets values =>
    obtain ⟨targets', values', htargets, hvalues, rfl, rfl⟩ := hreads.assignment
    exact (prints_children hsketch 0 htargets).append_all
      (prints_title (prints_children hsketch 1 hvalues))
  | _ =>
    obtain ⟨filled, hfilled, rfl⟩ := mapM_ifFilled hrequired hreads.slots
    rw [Sketch.belowLabel_uniform rfl, Sketch.reduceOption_map_some]
    exact (prints_slots hsketch hfilled).append_all (prints_ranges hsketch hreads.lists)

end

/-- The lines of a subtree are those of its sketch. -/
theorem linesFrom_of_sketchFrom {sketch : Sketch}
    (hrequired : ∀ n ∈ q.nodes, none ∉ n.kind.required)
    (h : q.sketchFrom src slot levels = .ok sketch) :
    q.linesFrom src depth slot levels = .ok (sketch.lines depth) := by
  induction levels generalizing depth slot sketch with
  | zero => cases h
  | succ levels ih =>
    obtain ⟨n, slots, lists, hn, hreads, rfl⟩ := foldFrom_succ.mp h
    have hbelow : q.Prints src depth levels n.kind.parts _ :=
      prints_parts (fun _ _ _ hs => ih hs) (hrequired n (mem_of_get hn)) hreads
    obtain ⟨groups, hgroups, hflatten⟩ := hbelow
    exact linesFrom_succ.mpr ⟨n, groups, hn, hgroups, by rw [hflatten, Sketch.ofNode, Sketch.lines]⟩

/-- Where there are lines, every fold has a value. -/
theorem exists_foldFrom (f : Node → List (Option β) → List (List β) → β)
    (hlists : ∀ n ∈ q.nodes, ∀ range ∈ n.kind.ranges, ∃ slots, q.list range = .ok slots)
    (h : q.linesFrom src depth slot levels = .ok ls) : ∃ b, q.foldFrom f slot levels = .ok b := by
  induction levels generalizing depth slot ls with
  | zero => cases h
  | succ levels ih =>
    obtain ⟨n, groups, hn, hgroups, -⟩ := linesFrom_succ.mp h
    have hslots : ∃ slots, n.kind.slots.mapM (ifFilled fun s => q.foldFrom f s levels) =
        .ok slots := by
      apply mapM_ok
      intro s hs
      cases s with
      | none => exact ⟨none, rfl⟩
      | some id =>
        obtain ⟨deeper, hchild⟩ := NodeKind.exists_child_mem_parts hs
        obtain ⟨ls, hls⟩ := exists_of_mem_left hgroups hchild
        obtain ⟨b, hb⟩ := ih hls
        exact ⟨some b, map_eq_ok.mpr ⟨b, hb, rfl⟩⟩
    have hranges : ∃ lists, n.kind.ranges.mapM (q.readList fun s => q.foldFrom f s levels) =
        .ok lists := by
      apply mapM_ok
      intro range hrange
      obtain ⟨slots, hlist⟩ := hlists n (mem_of_get hn) range hrange
      have hread : ∀ s ∈ slots, ∃ b, q.foldFrom f s levels = .ok b := by
        intro s hs
        have hempty : range.length ≠ 0 := by
          rw [← length_of_list hlist]
          exact (List.length_pos_of_mem hs).ne'
        obtain ⟨deeper, hchildren⟩ := NodeKind.exists_children_mem_parts hrange hempty
        obtain ⟨ls, hls⟩ := exists_of_mem_left hgroups hchildren
        obtain ⟨groups, hgroups, -⟩ := partLines_children.mp hls
        obtain ⟨slots', hlist', hgroups⟩ := bind_eq_ok.mp hgroups
        obtain rfl := Except.ok.inj (hlist.symm.trans hlist')
        obtain ⟨ls, hls⟩ := exists_of_mem_left hgroups hs
        exact ih hls
      obtain ⟨bs, hbs⟩ := mapM_ok hread
      exact ⟨bs, bind_eq_ok.mpr ⟨slots, hlist, hbs⟩⟩
    obtain ⟨slots, hslots⟩ := hslots
    obtain ⟨lists, hranges⟩ := hranges
    exact ⟨f n slots lists, foldFrom_succ.mpr ⟨n, slots, lists, hn, ⟨hslots, hranges⟩, rfl⟩⟩

/-- Every line is the line of a node, or a title. -/
theorem fillsLine_of_linesFrom
    (hnodes : ∀ n ∈ q.nodes, Label.FillsLine (n.headline src).toList)
    (h : q.linesFrom src depth slot levels = .ok ls) :
    ∀ l ∈ ls, Label.FillsLine l.text.toList := by
  induction levels generalizing depth slot ls with
  | zero => cases h
  | succ levels ih =>
    obtain ⟨n, groups, hn, hgroups, rfl⟩ := linesFrom_succ.mp h
    rw [List.forall_mem_cons]
    refine ⟨hnodes n (mem_of_get hn), fun l hl => ?_⟩
    obtain ⟨group, hgroup, hl⟩ := List.mem_flatten.mp hl
    obtain ⟨part, hmem, hpart⟩ := exists_of_mem_right hgroups hgroup
    cases part with
    | title text =>
      obtain rfl := Except.ok.inj hpart
      obtain rfl := List.mem_singleton.mp hl
      exact NodeKind.fillsLine_title hmem
    | child deeper s => exact ih hpart l hl
    | children deeper range =>
      obtain ⟨inner, hinner, rfl⟩ := partLines_children.mp hpart
      obtain ⟨slots, -, hinner⟩ := bind_eq_ok.mp hinner
      obtain ⟨ls, hls, hl⟩ := List.mem_flatten.mp hl
      obtain ⟨s, -, hs⟩ := exists_of_mem_right hinner hls
      exact ih hs l hl

end Pool

end Ast

end MicroCompiler
