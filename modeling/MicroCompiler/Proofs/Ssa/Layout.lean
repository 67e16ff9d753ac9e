import MicroCompiler.Proofs.Ssa.Code

/-! How the blocks of a function lie in its instructions. The blocks that were started tile the
instructions in the order in which they were started, all but the last one are closed, and arguments
are pushed for a call right behind them only. Each edit of a function keeps this, with one more
block or one more call where it adds one. -/

namespace MicroCompiler.Ssa

/-- The blocks that an instruction may jump to. -/
def Instruction.targets : Instruction → List BlockId
  | .jump k => [k]
  | .branch _ k l => [k, l]
  | _ => []

/-- The instruction is no part of a call. -/
def Instruction.isPlain : Instruction → Bool
  | .pushArg _ | .call _ _ _ => false
  | _ => true

/-- A call as it was made: where its instruction stands, whom it calls and with which values. -/
structure Invocation where
  position : Nat
  callee : FuncId
  args : List ValueId
  deriving DecidableEq, Repr

/-! ### Tilings -/

/-- The blocks lie behind each other in this order, from the instruction at `start` up to the one at
`stop`. -/
def Tiles (blocks : Array (Option Extent)) : Nat → List Nat → Nat → Prop
  | start, [], stop => start = stop
  | start, k :: rest, stop =>
    ∃ n, blocks[k]? = some (some ⟨start, n⟩) ∧ Tiles blocks (start + n) rest stop

section

variable {blocks blocks' : Array (Option Extent)} {start stop k l : Nat}
  {order before after : List Nat} {e e' : Extent}

theorem Tiles.le (h : Tiles blocks start order stop) : start ≤ stop := by
  induction order generalizing start with
  | nil => exact Nat.le_of_eq h
  | cons k rest ih =>
    obtain ⟨n, -, hrest⟩ := h
    have := ih hrest
    omega

theorem tiles_append : Tiles blocks start (before ++ after) stop ↔
    ∃ middle, Tiles blocks start before middle ∧ Tiles blocks middle after stop := by
  induction before generalizing start with
  | nil => simp [Tiles]
  | cons k rest ih =>
    simp only [List.cons_append, Tiles, ih]
    constructor
    · rintro ⟨n, hk, middle, hrest, hafter⟩
      exact ⟨middle, ⟨n, hk, hrest⟩, hafter⟩
    · rintro ⟨middle, ⟨n, hk, hrest⟩, hafter⟩
      exact ⟨n, hk, middle, hrest, hafter⟩

section

variable (h : Tiles blocks start order stop)

include h

theorem Tiles.congr (hblocks : ∀ k ∈ order, ∀ e, blocks[k]? = some (some e) →
      blocks'[k]? = some (some e)) :
    Tiles blocks' start order stop := by
  induction order generalizing start with
  | nil => exact h
  | cons k rest ih =>
    obtain ⟨n, hk, hrest⟩ := h
    exact ⟨n, hblocks k (by simp) _ hk, ih hrest fun l hl => hblocks l (by simp [hl])⟩

/-- A tile lies between the ends of its tiling. -/
theorem Tiles.bounds (hk : k ∈ order) (he : blocks[k]? = some (some e)) :
    start ≤ e.offset ∧ e.offset + e.length ≤ stop := by
  induction order generalizing start with
  | nil => simp at hk
  | cons l rest ih =>
    obtain ⟨n, hl, hrest⟩ := h
    rcases List.mem_cons.mp hk with rfl | hk
    · obtain rfl : e = ⟨start, n⟩ := by simpa [he] using hl
      exact ⟨Nat.le_refl _, hrest.le⟩
    · have := ih hrest hk
      omega

/-- Two tiles do not overlap. -/
theorem Tiles.apart (hk : k ∈ order) (hl : l ∈ order) (hne : k ≠ l)
    (he : blocks[k]? = some (some e)) (he' : blocks[l]? = some (some e')) :
    e.offset + e.length ≤ e'.offset ∨ e'.offset + e'.length ≤ e.offset := by
  induction order generalizing start with
  | nil => simp at hk
  | cons j rest ih =>
    obtain ⟨n, hj, hrest⟩ := h
    rcases List.mem_cons.mp hk with rfl | hk'
    · obtain rfl : e = ⟨start, n⟩ := by simpa [he] using hj
      have hl' : l ∈ rest := (List.mem_cons.mp hl).resolve_left hne.symm
      exact .inl (hrest.bounds hl' he').1
    · rcases List.mem_cons.mp hl with rfl | hl'
      · obtain rfl : e' = ⟨start, n⟩ := by simpa [he'] using hj
        exact .inr (hrest.bounds hk' he).1
      · exact ih hrest hk' hl'

/-- Every place between the ends lies in a tile. -/
theorem Tiles.cover {i : Nat} (hle : start ≤ i) (hlt : i < stop) :
    ∃ (k : Nat) (e : Extent), blocks[k]? = some (some e) ∧ e.offset ≤ i ∧
    i < e.offset + e.length := by
  induction order generalizing start with
  | nil =>
    have hempty : start = stop := h
    omega
  | cons k rest ih =>
    obtain ⟨n, hk, hrest⟩ := h
    by_cases hi : i < start + n
    · exact ⟨k, ⟨start, n⟩, hk, hle, hi⟩
    · exact ih hrest (by omega)

/-- The last tile reaches to the end. -/
theorem Tiles.last (hk : order.getLast? = some k) :
    ∃ e, blocks[k]? = some (some e) ∧ e.offset + e.length = stop := by
  obtain ⟨before, rfl⟩ := List.getLast?_eq_some_iff.mp hk
  obtain ⟨middle, -, n, he, hstop⟩ := tiles_append.mp h
  exact ⟨⟨middle, n⟩, he, hstop⟩

end

end

namespace Function

variable {f g : Function} {order : List Nat} {k : Nat} {e : Extent} {block : BlockId}
  {ts : List TypeId} {is : List Instruction}

/-- The block ends in a terminator. -/
def Ends (f : Function) (k : Nat) : Prop :=
  ∃ e ins, f.blocks[k]? = some (some e) ∧ 0 < e.length ∧ f.instructions[e.offset + e.length - 1]? =
    some ins ∧ ins.isTerminator = true

/-- The started blocks tile the instructions in the order in which they were started. -/
structure Tiled (f : Function) (order : List Nat) : Prop where
  nodup : order.Nodup
  entry : order.head? = some 0
  started : ∀ k, k ∈ order ↔ ∃ e, f.blocks[k]? = some (some e)
  tiles : Tiles f.blocks 0 order f.instructions.size
  closed : ∀ k ∈ order.dropLast, f.Ends k
  /-- No terminator stands before the last instruction of a block. -/
  inner : ∀ (k : Nat) (e : Extent) (i : Nat) (ins : Instruction), f.blocks[k]? = some (some e) →
    e.offset ≤ i → i + 1 < e.offset + e.length → f.instructions[i]? = some ins →
    ins.isTerminator = false

theorem Ends.mono (h : f.Ends k) (hblock : ∀ e, f.blocks[k]? = some (some e) →
      g.blocks[k]? = some (some e))
    (hinstructions : Grown f.instructions g.instructions) : g.Ends k := by
  obtain ⟨e, ins, he, hpos, hins, hterm⟩ := h
  exact ⟨e, ins, hblock e he, hpos, hinstructions _ _ hins, hterm⟩

/-- Blocks that are not started do not matter. -/
theorem Tiled.congr (h : f.Tiled order)
    (hblocks : ∀ (k : Nat) (e : Extent), g.blocks[k]? = some (some e) ↔
      f.blocks[k]? = some (some e))
    (hinstructions : g.instructions = f.instructions) : g.Tiled order where
  nodup := h.nodup
  entry := h.entry
  started k := by
    rw [h.started]
    exact exists_congr fun e => (hblocks k e).symm
  tiles := by
    rw [hinstructions]
    exact h.tiles.congr fun k _ e => (hblocks k e).mpr
  closed k hk := (h.closed k hk).mono (fun e => (hblocks k e).mpr) (hinstructions ▸ Grown.refl _)
  inner k e i ins he hle hlt hins := h.inner k e i ins ((hblocks k e).mp he) hle hlt
    (hinstructions ▸ hins)

theorem Tiled.bounds (h : f.Tiled order) (he : f.blocks[k]? = some (some e)) :
    e.offset + e.length ≤ f.instructions.size :=
  (h.tiles.bounds ((h.started k).mpr ⟨e, he⟩) he).2

/-- Once the block started last is closed, all are. -/
theorem Tiled.ends_of_mem (h : f.Tiled order) (hlast : ∀ k, order.getLast? = some k → f.Ends k)
    (hk : k ∈ order) : f.Ends k := by
  rcases List.eq_nil_or_concat order with rfl | ⟨before, last, rfl⟩
  · simp at hk
  · rw [List.concat_eq_append] at hk h hlast
    rcases List.mem_append.mp hk with hbefore | hone
    · exact h.closed k (by simpa using hbefore)
    · exact hlast k (by simp [List.mem_singleton.mp hone])

theorem begun_tiled (name : String) (args : List TypeId) (ret : Option TypeId) :
    (Function.begun name args ret).Tiled [0] where
  nodup := by simp
  entry := rfl
  started k := by
    cases k with
    | zero => simp [Function.begun]
    | succ k => simp [Function.begun]
  tiles := ⟨1, rfl, rfl⟩
  closed k hk := by simp at hk
  inner k e i ins he _ hlt hins := by
    cases k with
    | zero =>
      obtain rfl : ⟨0, 1⟩ = e := by simpa [Function.begun] using he
      exact absurd hlt (by simp)
    | succ k => simp [Function.begun] at he

theorem Tiled.addBlock (h : f.Tiled order) : f.addBlock.Tiled order := by
  refine h.congr ?_ rfl
  intro k e
  simp only [Function.addBlock, Array.getElem?_push]
  split
  next hk => simp [hk]
  next => rfl

theorem Tiled.addLocal (h : f.Tiled order) (t pointer : TypeId) :
    (f.addLocal t pointer).Tiled order :=
  h.congr (fun _ _ => Iff.rfl) rfl

/-- A new block begins behind all others, once the last of them is closed. -/
theorem Tiled.start (h : f.Tiled order) (hclosed : ∀ k, order.getLast? = some k → f.Ends k)
    (hblock : f.blocks[block.index]? = some none) :
    (f.start block).Tiled (order ++ [block.index]) := by
  have hnew : block.index ∉ order := by
    rw [h.started]
    rintro ⟨e, he⟩
    simp [he] at hblock
  have hold : ∀ k ∈ order, ∀ e, f.blocks[k]? = some (some e) → (f.start block).blocks[k]? =
      some (some e) := by
    intro k hk e he
    have hne : block.index ≠ k := fun heq => hnew (heq ▸ hk)
    rw [start_blocks hblock, if_neg hne, he]
  refine ⟨?_, ?_, ?_, ?_, ?_, ?_⟩
  · rw [List.nodup_append]
    refine ⟨h.nodup, by simp, ?_⟩
    rintro k hk l hl rfl
    exact hnew (List.mem_singleton.mp hl ▸ hk)
  · rw [List.head?_append, h.entry]
    rfl
  · intro k
    rw [List.mem_append, List.mem_singleton, h.started, start_blocks hblock]
    by_cases hk : block.index = k
    · simp [hk]
    · simp [hk, Ne.symm hk]
  · rw [tiles_append]
    exact ⟨f.instructions.size, h.tiles.congr hold, 0, by rw [start_blocks hblock, if_pos rfl], rfl⟩
  · intro k hk
    rw [List.dropLast_concat] at hk
    exact (h.ends_of_mem hclosed hk).mono (hold k hk) (Grown.refl _)
  · intro k e i ins he hle hlt hins
    rw [start_blocks hblock] at he
    split at he
    next =>
      obtain rfl : ⟨f.instructions.size, 0⟩ = e := by simpa using he
      simp only [Nat.add_zero] at hlt hle
      omega
    next => exact h.inner k e i ins he hle hlt hins

/-- Extending the last block puts no terminator before its end, if the block was open. -/
theorem Tiled.extend_inner (h : f.Tiled order) {start n : Nat}
    (hblock : f.blocks[block.index]? = some (some ⟨start, n⟩))
    (hend : start + n = f.instructions.size) (hopen : ¬ f.Ends block.index)
    (his : ∀ ins ∈ is.dropLast, ins.isTerminator = false) {i : Nat} {ins : Instruction}
    (hle : start ≤ i) (hlt : i + 1 < start + (n + is.length))
    (hins : (f.extend block ts is).instructions[i]? = some ins) :
    ins.isTerminator = false := by
  rcases f.extend_instructions block ts is hins with hold | ⟨j, rfl, hj⟩
  · have hi := (Array.getElem?_eq_some_iff.mp hold).1
    by_cases hinner : i + 1 < start + n
    · exact h.inner _ _ i ins hblock hle hinner hold
    · -- what was the last instruction is no terminator, since the block was open
      have hi' : start + n - 1 = i := by omega
      by_contra hterm
      exact hopen ⟨⟨start, n⟩, ins, hblock, by simp only; omega, hi' ▸ hold, by simpa using hterm⟩
  · apply his
    rw [List.mem_iff_getElem?]
    refine ⟨j, ?_⟩
    rw [List.getElem?_dropLast, if_pos (by omega), hj]

/-- The last block may grow as long as it is open, and only what is added last may close it. -/
theorem Tiled.extend (h : f.Tiled order) (hlast : order.getLast? = some block.index)
    (hopen : ¬ f.Ends block.index) (his : ∀ ins ∈ is.dropLast, ins.isTerminator = false) :
    (f.extend block ts is).Tiled order := by
  obtain ⟨before, rfl⟩ := List.getLast?_eq_some_iff.mp hlast
  have hnew : block.index ∉ before := by
    have := h.nodup
    simp only [List.nodup_append] at this
    exact fun hk => this.2.2 _ hk _ (by simp) rfl
  have hbefore : ∀ k ∈ before, k ≠ block.index := fun k hk heq => hnew (heq ▸ hk)
  have hold : ∀ k, k ≠ block.index → ∀ e,
      (f.extend block ts is).blocks[k]? = some (some e) ↔ f.blocks[k]? = some (some e) := by
    intro k hk e
    rw [extend_blocks, if_neg (Ne.symm hk)]
  obtain ⟨start, htiles, n, hblock, hend⟩ := tiles_append.mp h.tiles
  have hend' : start + n = f.instructions.size := hend
  have hblock' : (f.extend block ts is).blocks[block.index]? =
      some (some ⟨start, n + is.length⟩) := by
    rw [extend_blocks, if_pos rfl, hblock]
    rfl
  have hsize : (f.extend block ts is).instructions.size = f.instructions.size + is.length := by
    simp [Function.extend]
  refine ⟨h.nodup, h.entry, ?_, ?_, ?_, ?_⟩
  · intro k
    rw [h.started]
    by_cases hk : k = block.index
    · subst hk
      simp [hblock, hblock']
    · exact exists_congr fun e => (hold k hk e).symm
  · rw [tiles_append]
    refine ⟨start, htiles.congr fun k hk e => (hold k (hbefore k hk) e).mpr,
      n + is.length, hblock', ?_⟩
    show start + (n + is.length) = _
    omega
  · intro k hk
    rw [List.dropLast_concat] at hk
    exact (h.closed k (by simpa using hk)).mono (fun e => (hold k (hbefore k hk) e).mpr)
      (f.grows_extend block ts is).instructions
  · intro k e i ins he hle hlt hins
    by_cases hk : k = block.index
    · subst hk
      obtain rfl : ⟨start, n + is.length⟩ = e := by simpa [hblock'] using he
      exact h.extend_inner hblock hend' hopen his hle hlt hins
    · -- the other blocks end before what is added
      have he' := (hold k hk e).mp he
      have hbound := h.bounds he'
      rcases f.extend_instructions block ts is hins with hins' | ⟨j, rfl, hj⟩
      · exact h.inner k e i ins he' hle hlt hins'
      · omega

/-! ### Closed blocks -/

theorem extract_getLast? {e : Extent} (hle : e.offset + e.length ≤ f.instructions.size)
    (hpos : 0 < e.length) :
      (f.instructions.extract e.offset (e.offset + e.length)).toList.getLast? =
      f.instructions[e.offset + e.length - 1]? := by
  have hlen : (f.instructions.extract e.offset (e.offset + e.length)).toList.length = e.length := by
    simp
    omega
  have hindex : e.offset + e.length - 1 = e.offset + (e.length - 1) := by omega
  rw [List.getLast?_eq_getElem?, hlen, Array.getElem?_toList, Array.getElem?_extract,
    if_pos (by omega), hindex]

/-- What the builder asks of the current block before it starts or extends one. -/
theorem ends_iff_getLast? {is : List Instruction} (he : f.blocks[block.index]? = some (some e))
    (his : f.blockInstructions block = .ok is) :
    f.Ends block.index ↔ is.getLast?.any (·.isTerminator) = true := by
  simp only [blockInstructions, fetch_eq_ok.mpr he, Except.mapError, bind, Except.bind,
    extentInstructions] at his
  obtain ⟨hle, rfl⟩ := slice_eq_ok (mapError_eq_ok.mp his)
  by_cases hpos : 0 < e.length
  · rw [extract_getLast? hle hpos]
    constructor
    · rintro ⟨e', ins, he', -, hins, hterm⟩
      obtain rfl : e = e' := by simpa [he] using he'
      simp [hins, hterm]
    · intro hany
      cases hins : f.instructions[e.offset + e.length - 1]? with
      | none => simp [hins] at hany
      | some ins => exact ⟨e, ins, he, hpos, hins, by simpa [hins] using hany⟩
  · have hempty : (f.instructions.extract e.offset (e.offset + e.length)).toList = [] := by
      have hzero : e.length = 0 := by omega
      simp [hzero]
    rw [hempty]
    constructor
    · rintro ⟨e', ins, he', hpos', -⟩
      obtain rfl : e = e' := by simpa [he] using he'
      exact absurd hpos' hpos
    · simp

theorem isClosed_of_ends (h : f.Tiled order) (he : f.blocks[k]? = some (some e))
    (hends : f.Ends k) : f.isClosed (some e) = true := by
  obtain ⟨e', last, he', hpos, hlast, hterm⟩ := hends
  obtain rfl : e = e' := by simpa [he] using he'
  have hle := h.bounds he
  have hslice : f.extentInstructions (some e) = .ok (f.instructions.extract e.offset (e.offset +
      e.length)).toList := by
    simp only [extentInstructions, BoundsError.slice]
    rw [if_neg (by omega), if_neg (by omega)]
    rfl
  have hgetLast := (extract_getLast? hle hpos).trans hlast
  obtain ⟨before, hbefore⟩ := List.getLast?_eq_some_iff.mp hgetLast
  have hlength : before.length + 1 = e.length := by
    have := congrArg List.length hbefore
    simp only [Array.length_toList, Array.size_extract, List.length_append,
      List.length_singleton] at this
    omega
  simp only [isClosed, hslice, hbefore, List.reverse_append, List.reverse_singleton,
    List.singleton_append, hterm, Bool.true_and, Bool.not_eq_true', List.any_eq_false,
    List.mem_reverse]
  intro ins hins
  obtain ⟨j, hj⟩ := List.mem_iff_getElem?.mp hins
  have hlt := (List.getElem?_eq_some_iff.mp hj).1
  have hins' : f.instructions[e.offset + j]? = some ins := by
    have hget := congrArg (·[j]?) hbefore
    simp only [Array.getElem?_toList, Array.getElem?_extract, List.getElem?_append_left hlt,
      hj] at hget
    rwa [if_pos (by omega)] at hget
  simp [h.inner k e (e.offset + j) ins he (by omega) (by omega) hins']

theorem Tiled.isTarget_iff (h : f.Tiled order) (t : BlockId) :
    f.isTarget t = true ↔ t.index ≠ 0 ∧ t.index ∈ order := by
  rw [h.started]
  simp only [isTarget, Bool.and_eq_true, bne_iff_ne]
  refine and_congr_right fun _ => ?_
  cases ht : f.blocks[t.index]? with
  | none => simp
  | some extent => cases extent <;> simp

theorem Tiled.targetsOk_iff (h : f.Tiled order) {ins : Instruction}
    (hpos : ∀ t ∈ ins.targets, 0 < t.index) : f.targetsOk ins = true ↔ ∀ t ∈ ins.targets,
    t.index ∈ order := by
  cases ins with
  | jump t =>
    have ht := Nat.ne_of_gt (hpos t (by simp [Instruction.targets]))
    simp [targetsOk, h.isTarget_iff, Instruction.targets, ht]
  | branch condition t u =>
    have ht := Nat.ne_of_gt (hpos t (by simp [Instruction.targets]))
    have hu := Nat.ne_of_gt (hpos u (by simp [Instruction.targets]))
    simp [targetsOk, h.isTarget_iff, Instruction.targets, ht, hu]
  | _ => simp [targetsOk, Instruction.targets]

/-- Well-formed are the functions whose last block is closed and whose jumps lead to blocks that
were started. -/
theorem Tiled.isWellFormed_iff (h : f.Tiled order)
    (htargets : ∀ (i : Nat) (ins : Instruction), f.instructions[i]? = some ins → ∀ t ∈ ins.targets,
      0 < t.index) :
    f.isWellFormed = true ↔ (∀ k, order.getLast? = some k → f.Ends k) ∧
      ∀ (i : Nat) (ins : Instruction), f.instructions[i]? = some ins → ∀ t ∈ ins.targets,
      t.index ∈ order := by
  constructor
  · intro hwell
    constructor
    · intro k hk
      obtain ⟨e, he, -⟩ := h.tiles.last hk
      obtain ⟨hpos, -, ins, hins, hterm⟩ := isClosed_some (isWellFormed_closed hwell he)
      exact ⟨e, ins, he, hpos, hins, hterm⟩
    · intro i ins hi
      exact (h.targetsOk_iff (htargets i ins hi)).mp (isWellFormed_targets hwell hi)
  · rintro ⟨hlast, hstarted⟩
    simp only [isWellFormed, Bool.and_eq_true, Array.all_eq_true_iff_forall_mem]
    constructor
    · intro ins hins
      obtain ⟨i, hi⟩ := Array.mem_iff_getElem?.mp hins
      exact (h.targetsOk_iff (htargets i ins hi)).mpr (hstarted i ins hi)
    · intro extent hextent
      cases extent with
      | none => rfl
      | some e =>
        obtain ⟨k, hk⟩ := Array.mem_iff_getElem?.mp hextent
        exact isClosed_of_ends h hk (h.ends_of_mem hlast ((h.started k).mpr ⟨e, hk⟩))

/-! ### Calls -/

/-- The call stands in one block with the pushes of its arguments right before it. -/
structure Invokes (f : Function) (c : Invocation) : Prop where
  call : ∃ r, f.instructions[c.position]? = some (.call c.callee c.args.length r)
  pushed : f.PushedBefore c.position c.args
  block : ∃ (k : Nat) (e : Extent), f.blocks[k]? = some (some e) ∧ e.offset + c.args.length ≤
    c.position ∧ c.position < e.offset + e.length

/-- There are these calls and no others, and arguments are pushed for them only. -/
structure Records (f : Function) (calls : List Invocation) : Prop where
  invokes : ∀ c ∈ calls, f.Invokes c
  complete : ∀ (i : Nat) (callee : FuncId) (argc : Nat) (r : Option ValueId),
    f.instructions[i]? = some (.call callee argc r) → ∃ c ∈ calls, c.position = i
  pushes : ∀ (i : Nat) (v : ValueId), f.instructions[i]? = some (.pushArg v) →
    ∃ c ∈ calls, c.position ≤ i + c.args.length ∧ i < c.position

variable {c : Invocation} {calls : List Invocation}

theorem Invokes.mono (h : f.Invokes c) (hinstructions : Grown f.instructions g.instructions)
    (hblocks : ∀ (k : Nat) (e : Extent), f.blocks[k]? = some (some e) →
      ∃ n, e.length ≤ n ∧ g.blocks[k]? = some (some ⟨e.offset, n⟩)) : g.Invokes c where
  call := by
    obtain ⟨r, hr⟩ := h.call
    exact ⟨r, hinstructions _ _ hr⟩
  pushed := ⟨h.pushed.1, fun j v hv => hinstructions _ _ (h.pushed.2 j v hv)⟩
  block := by
    obtain ⟨k, e, he, hle, hlt⟩ := h.block
    obtain ⟨n, hn, hg⟩ := hblocks k e he
    exact ⟨k, ⟨e.offset, n⟩, hg, hle, by simp only; omega⟩

theorem Invokes.callArgs (h : f.Invokes c) : f.callArgs c.position = .ok c.args := by
  obtain ⟨r, hr⟩ := h.call
  exact callArgs_eq hr rfl h.pushed

/-- Blocks may be made and started, and locals added, without a change to the calls. -/
theorem Records.congr (h : f.Records calls) (hinstructions : g.instructions = f.instructions)
    (hblocks : ∀ (k : Nat) (e : Extent), f.blocks[k]? = some (some e) →
      g.blocks[k]? = some (some e)) :
    g.Records calls where
  invokes c hc := by
    refine (h.invokes c hc).mono (hinstructions ▸ Grown.refl _) ?_
    exact fun k e he => ⟨e.length, Nat.le_refl _, hblocks k e he⟩
  complete i callee argc r hi := h.complete i callee argc r (hinstructions ▸ hi)
  pushes i v hi := h.pushes i v (hinstructions ▸ hi)

theorem begun_records (name : String) (args : List TypeId) (ret : Option TypeId) :
    (Function.begun name args ret).Records [] where
  invokes c hc := by simp at hc
  complete i callee argc r hi := by simp [Function.begun, List.getElem?_singleton] at hi
  pushes i v hi := by simp [Function.begun, List.getElem?_singleton] at hi

/-- What is appended adds the calls in it. -/
theorem Records.extend (h : f.Records calls) {added : List Invocation}
    (hadded : ∀ c ∈ added, (f.extend block ts is).Invokes c)
    (hcalls : ∀ (j : Nat) (callee : FuncId) (argc : Nat) (r : Option ValueId), is[j]? =
      some (.call callee argc r) → ∃ c ∈ added, c.position = f.instructions.size + j)
    (hpushes : ∀ (j : Nat) (v : ValueId), is[j]? = some (.pushArg v) → ∃ c ∈ added,
      c.position ≤ f.instructions.size + j + c.args.length ∧ f.instructions.size + j < c.position) :
    (f.extend block ts is).Records (calls ++ added) where
  invokes c hc := by
    rcases List.mem_append.mp hc with hc | hc
    · refine (h.invokes c hc).mono (f.grows_extend block ts is).instructions ?_
      intro k e he
      rw [extend_blocks, he]
      split
      next => exact ⟨e.length + is.length, by omega, rfl⟩
      next => exact ⟨e.length, Nat.le_refl _, rfl⟩
    · exact hadded c hc
  complete i callee argc r hi := by
    rcases f.extend_instructions block ts is hi with hold | ⟨j, rfl, hj⟩
    · obtain ⟨c, hc, hposition⟩ := h.complete i callee argc r hold
      exact ⟨c, List.mem_append_left _ hc, hposition⟩
    · obtain ⟨c, hc, hposition⟩ := hcalls j callee argc r hj
      exact ⟨c, List.mem_append_right _ hc, hposition⟩
  pushes i v hi := by
    rcases f.extend_instructions block ts is hi with hold | ⟨j, rfl, hj⟩
    · obtain ⟨c, hc, hposition⟩ := h.pushes i v hold
      exact ⟨c, List.mem_append_left _ hc, hposition⟩
    · obtain ⟨c, hc, hposition⟩ := hpushes j v hj
      exact ⟨c, List.mem_append_right _ hc, hposition⟩

theorem Records.extend_plain (h : f.Records calls) {ins : Instruction}
    (hplain : ins.isPlain = true) : (f.extend block ts [ins]).Records calls := by
  have hone : ∀ {j : Nat} {ins' : Instruction}, [ins][j]? = some ins' → ins'.isPlain = true := by
    intro j ins' hj
    rwa [List.mem_singleton.mp (List.mem_of_getElem? hj)]
  rw [← List.append_nil calls]
  refine h.extend (by simp) ?_ ?_
  · intro j callee argc r hj
    exact absurd (hone hj) (by simp [Instruction.isPlain])
  · intro j v hj
    exact absurd (hone hj) (by simp [Instruction.isPlain])

/-- A call is appended to the block that reaches to the end, behind the pushes of its arguments. -/
theorem Records.extend_call (h : f.Records calls)
    (hcurrent : ∃ e, f.blocks[block.index]? = some (some e) ∧
      e.offset + e.length = f.instructions.size)
    (callee : FuncId) (args : List ValueId) (r : Option ValueId) :
    (f.extend block ts (args.map .pushArg ++ [.call callee args.length r])).Records
      (calls ++ [⟨f.instructions.size + args.length, callee, args⟩]) := by
  have hnew : ∀ j, (f.extend block ts (args.map .pushArg ++
    [.call callee args.length r])).instructions[
      f.instructions.size + j]? = (args.map .pushArg ++ [.call callee args.length r])[j]? := by
    intro j
    simp only [Function.extend, List.getElem?_toArray, Array.getElem?_append_right
      (Nat.le_add_right _ _), Nat.add_sub_cancel_left]
  refine h.extend ?_ ?_ ?_
  · simp only [List.forall_mem_singleton]
    refine ⟨⟨r, ?_⟩, ⟨by simp only; omega, ?_⟩, ?_⟩
    · rw [hnew]
      simp
    · intro j v hv
      have hj : j < args.length := (List.getElem?_eq_some_iff.mp hv).1
      have hposition : f.instructions.size + args.length - args.length + j =
          f.instructions.size + j := by omega
      rw [hposition, hnew, List.getElem?_append_left (by simpa using hj), List.getElem?_map, hv]
      rfl
    · obtain ⟨e, he, hend⟩ := hcurrent
      refine ⟨block.index, ⟨e.offset, e.length + (args.length + 1)⟩,
        ?_, by simp only; omega, by simp only; omega⟩
      rw [extend_blocks, if_pos rfl, he]
      simp
  · intro j callee' argc r' hj
    refine ⟨_, List.mem_singleton_self _, ?_⟩
    rw [List.getElem?_append] at hj
    split at hj
    next => simp at hj
    next hge =>
      have hlt := (List.getElem?_eq_some_iff.mp hj).1
      simp only [List.length_map, List.length_singleton] at hge hlt
      simp only
      omega
  · intro j v hj
    refine ⟨_, List.mem_singleton_self _, by simp only; omega, ?_⟩
    rw [List.getElem?_append] at hj
    split at hj
    next hlt =>
      simp only [List.length_map] at hlt
      simp only
      omega
    next => simp [List.getElem?_singleton] at hj

end Function

end MicroCompiler.Ssa
