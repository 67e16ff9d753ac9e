import MicroCompiler.Proofs.Types

/-! Interning of types. Whatever is asked of a type table, its entries and its index of pointer
types stay inverse to each other: each pointer type has one entry, which is found under its pointee.
So an id stands for its type for good, equal types have equal ids, and the walk from a pointer to
its pointees ends at a primitive. Main statement: `reachable_interned`. -/

namespace MicroCompiler.TypeTable

variable {types types' : TypeTable} {t id : TypeId}

/-! ### The interning of one pointer type -/

theorem Registered.pointerTo (h : types.Registered t) :
    ∃ id types', types.pointerTo t = .ok (id, types') := by
  cases hfound : types.pointers.lookup t with
  | some id => exact ⟨id, types, pointerTo_eq_ok.mpr (.inl ⟨hfound, rfl⟩)⟩
  | none => exact ⟨_, _, pointerTo_eq_ok.mpr (.inr ⟨hfound, h, rfl, rfl⟩)⟩

/-- No pointer type is found for an id of no type, since the pointees of all entries are
registered. -/
theorem Sound.pointerTo_error (h : types.Sound) (ht : ¬ types.Registered t) :
    types.pointerTo t = .error (.unregisteredPointee t) := by
  have hnone : types.pointers.lookup t = none := by
    cases hfound : types.pointers.lookup t with
    | none => rfl
    | some id => exact absurd (h.pointee_registered (h.pointers t id hfound)) ht
  unfold TypeTable.pointerTo
  rw [hnone]
  exact if_neg ht

/-- A primitive has one place among all of them. -/
theorem primitive_place {i j : Nat} {p : Primitive} (hi : Primitive.all[i]? = some p)
    (hj : Primitive.all[j]? = some p) : i = j := by
  have hnodup : Primitive.all.Nodup := by decide
  exact (List.getElem?_inj (List.getElem?_eq_some_iff.mp hi).1 hnodup).mp (hi.trans hj.symm)

/-- Behind the primitives there are pointer types only, and each of them is found under its
pointee. -/
structure Interned (types : TypeTable) : Prop extends types.Sound where
  later : ∀ (i : Nat) info, types.infos[i]? = some info → Primitive.all.length ≤ i →
    ∃ t, info = .pointer t
  found : ∀ (t id : TypeId), types.infos[id.index]? = some (.pointer t) →
    types.pointers.lookup t = some id

theorem initial_interned : initial.Interned where
  toSound := initial_sound
  later i info h hi := by
    have hlt := (Array.getElem?_eq_some_iff.mp h).1
    simp only [initial, List.size_toArray, List.length_map] at hlt
    omega
  found t id h := by simp [initial] at h

namespace Interned

theorem lookup_iff (h : types.Interned) :
    types.pointers.lookup t = some id ↔ types.infos[id.index]? = some (.pointer t) :=
  ⟨h.pointers t id, h.found t id⟩

theorem pointerTo (h : types.Interned) (hrun : types.pointerTo t = .ok (id, types')) :
    types'.Interned := by
  have hsound := (h.toSound.pointerTo hrun).1
  rcases pointerTo_eq_ok.mp hrun with ⟨-, rfl⟩ | ⟨hnone, -, -, rfl⟩
  · exact h
  refine ⟨hsound, ?_, ?_⟩
  · intro i info hi hle
    rw [Array.getElem?_push] at hi
    split at hi
    · exact ⟨t, by simpa using hi.symm⟩
    · exact h.later i info hi hle
  · intro u id hu
    rw [Array.getElem?_push] at hu
    split at hu
    next hnew =>
      obtain rfl : t = u := by simpa using hu
      have hid : (⟨types.size⟩ : TypeId) = id := by
        cases id
        simpa [size] using hnew.symm
      simp [hid]
    next =>
      -- An older entry keeps its place in the index, since the new pointee had none.
      have hold := h.found u id hu
      have hne : u ≠ t := by
        rintro rfl
        rw [hnone] at hold
        cases hold
      simpa [List.lookup_cons, beq_eq_false_iff_ne.mpr hne] using hold

theorem primitive_iff (h : types.Interned) {i : Nat} {p : Primitive} :
    types.infos[i]? = some (.primitive p) ↔ Primitive.all[i]? = some p := by
  constructor
  · intro hi
    by_cases hlt : i < Primitive.all.length
    · have hentry := h.primitives i _ (List.getElem?_eq_getElem hlt)
      rw [hentry] at hi
      simpa [hlt] using hi
    · obtain ⟨t, ht⟩ := h.later i _ hi (by omega)
      cases ht
  · exact h.primitives i p

/-- Equal types have equal ids. -/
theorem unique (h : types.Interned) {i j : Nat} {info : TypeInfo} (hi : types.infos[i]? = some info)
    (hj : types.infos[j]? = some info) : i = j := by
  cases info with
  | primitive p =>
    rw [h.primitive_iff] at hi hj
    exact primitive_place hi hj
  | pointer t =>
    have hfound := (h.found t ⟨i⟩ hi).symm.trans (h.found t ⟨j⟩ hj)
    simpa using hfound

end Interned

/-! ### Names -/

theorem nameFrom_primitive {p : Primitive} (h : types.infos[id.index]? = some (.primitive p))
    (stars steps : Nat) :
    types.nameFrom stars id (steps + 1) =
    .ok (String.ofList (List.replicate stars '*') ++ p.name) := by
  simp [nameFrom, info_eq_ok.mpr h, bind, Except.bind, pure, Except.pure]

theorem nameFrom_pointer (h : types.infos[id.index]? = some (.pointer t)) (stars steps : Nat) :
    types.nameFrom stars id (steps + 1) = types.nameFrom (stars + 1) t steps := by
  simp [nameFrom, info_eq_ok.mpr h, bind, Except.bind]

/-- A primitive behind a number of stars. -/
def spelling (stars : Nat) (p : Primitive) : String :=
  String.ofList (List.replicate stars '*') ++ p.name

/-- The entries from an id on are a number of pointers and then a primitive. -/
inductive Spells (types : TypeTable) : TypeId → Nat → Primitive → Prop where
  | primitive {id : TypeId} {p : Primitive} : types.infos[id.index]? = some (.primitive p) →
    Spells types id 0 p
  | pointer {id t : TypeId} {k : Nat} {p : Primitive} : types.infos[id.index]? = some (.pointer t) →
    Spells types t k p → Spells types id (k + 1) p

theorem Sound.spells (h : types.Sound) (hid : types.Registered id) :
    ∃ k p, types.Spells id k p := by
  induction hn : id.index using Nat.strongRecOn generalizing id with
  | _ n ih =>
    subst hn
    obtain ⟨info, hinfo⟩ := hid.info
    cases info with
    | primitive p => exact ⟨0, p, .primitive hinfo⟩
    | pointer t =>
      obtain ⟨k, p, hrest⟩ := ih t.index (h.pointees _ t hinfo) (h.pointee_registered hinfo) rfl
      exact ⟨k + 1, p, .pointer hinfo hrest⟩

/-- Pointees are older than their pointers, so a chain is no longer than its first id allows. -/
theorem Spells.le_index {k : Nat} {p : Primitive} (hsound : types.Sound) (h : types.Spells id k p) :
    k ≤ id.index := by
  induction h with
  | primitive => exact Nat.zero_le _
  | pointer hentry _ ih =>
    exact Nat.succ_le_of_lt (Nat.lt_of_le_of_lt ih (hsound.pointees _ _ hentry))

theorem Spells.nameFrom_eq {k : Nat} {p : Primitive} (h : types.Spells id k p) (stars : Nat)
    {steps : Nat} (hsteps : k < steps) :
    types.nameFrom stars id steps = .ok (spelling (stars + k) p) := by
  obtain ⟨rest, rfl⟩ : ∃ rest, steps = rest + 1 := ⟨steps - 1, by omega⟩
  induction h generalizing stars rest with
  | primitive hentry => exact nameFrom_primitive hentry stars rest
  | @pointer id t k p hentry _ ih =>
    obtain ⟨more, rfl⟩ : ∃ more, rest = more + 1 := ⟨rest - 1, by omega⟩
    rw [nameFrom_pointer hentry, ih (stars + 1) more (by omega), Nat.add_assoc, Nat.add_comm 1 k]

/-- The walk to the name of a type goes down to a primitive, one star for each pointer, and takes no
more steps than the id of the type allows. -/
theorem Sound.nameFrom_eq (h : types.Sound) (hid : types.Registered id) :
    ∃ depth p, ∀ stars steps, id.index < steps →
      types.nameFrom stars id steps = .ok (String.ofList (List.replicate (stars + depth) '*') ++
        Primitive.name p) := by
  obtain ⟨depth, p, hspells⟩ := h.spells hid
  refine ⟨depth, p, fun stars steps hsteps => ?_⟩
  exact hspells.nameFrom_eq stars (Nat.lt_of_le_of_lt (hspells.le_index h) hsteps)

/-! ### Queries -/

/-- What can be asked of a table. -/
inductive Query where
  | pointerTo (pointee : TypeId)
  | byName (name : String)
  | info (id : TypeId)
  | name (id : TypeId)
  deriving DecidableEq, Repr

/-- The table after a query that may register types. One that fails returns no table, so the old one
is kept. -/
def kept (types : TypeTable) : Except Error (α × TypeTable) → TypeTable
  | .ok (_, types') => types'
  | .error _ => types

/-- The table after a query. -/
def ask (types : TypeTable) : Query → TypeTable
  | .pointerTo t => types.kept (types.pointerTo t)
  | .byName name => types.kept (types.byName name)
  | .info _ | .name _ => types

def askAll (types : TypeTable) (queries : List Query) : TypeTable := queries.foldl ask types

section

-- What the making of one pointer type keeps, all queries keep.
variable {P : TypeTable → Prop}
  (hstep : ∀ {types types' : TypeTable} {t id : TypeId}, types.pointerTo t = .ok (id, types') →
  P types → P types')
include hstep

theorem pointerChain_keeps {depth : Nat} (hrun : types.pointerChain t depth = .ok (id, types'))
    (h : P types) : P types' := by
  induction depth generalizing types t with
  | zero =>
    cases hrun
    exact h
  | succ depth ih =>
    cases hpointer : types.pointerTo t with
    | error e => simp [pointerChain, hpointer, bind, Except.bind] at hrun
    | ok made =>
      simp only [pointerChain, hpointer, bind, Except.bind] at hrun
      exact ih hrun (hstep hpointer h)

theorem ask_keeps (q : Query) (h : P types) : P (types.ask q) := by
  cases q with
  | pointerTo t =>
    cases hrun : types.pointerTo t with
    | error e => simpa [ask, hrun, kept] using h
    | ok made => simpa [ask, hrun, kept] using hstep hrun h
  | byName name =>
    simp only [ask, byName]
    split
    · exact h
    next i hi =>
      generalize (name.toList.takeWhile (· = '*')).length = stars
      cases hrun : types.pointerChain ⟨i⟩ stars with
      | error e => exact h
      | ok made => exact pointerChain_keeps hstep hrun h
  | info id => exact h
  | name id => exact h

theorem askAll_keeps (queries : List Query) (h : P types) : P (types.askAll queries) := by
  induction queries generalizing types with
  | nil => exact h
  | cons q queries ih => exact ih (ask_keeps hstep q h)

end

theorem Interned.askAll (h : types.Interned) (queries : List Query) :
    (types.askAll queries).Interned ∧ Grown types.infos (types.askAll queries).infos := by
  refine askAll_keeps (P := fun types' => types'.Interned ∧ Grown types.infos types'.infos) ?_
    queries ⟨h, .refl _⟩
  rintro types₁ types₂ t id hrun ⟨h₁, hgrown⟩
  exact ⟨h₁.pointerTo hrun, hgrown.trans (h₁.toSound.pointerTo hrun).2.1⟩

/-- Ids of pointer types that were asked for one after the other are equal only for equal
pointees. -/
theorem Interned.pointerTo_inj (h : types.Interned) {a b p q : TypeId} {types₁ types₂ : TypeTable}
    {queries : List Query} (ha : types.pointerTo a = .ok (p, types₁))
    (hb : (types₁.askAll queries).pointerTo b = .ok (q, types₂)) : p = q ↔ a = b := by
  have h₁ := h.pointerTo ha
  obtain ⟨h', hgrown⟩ := h₁.askAll queries
  obtain ⟨-, hgrown₂, hq⟩ := h'.toSound.pointerTo hb
  have h₂ := h'.pointerTo hb
  have hpa : types₂.infos[p.index]? = some (.pointer a) :=
    (hgrown.trans hgrown₂) _ _ (h₁.pointers a p (h.toSound.pointerTo ha).2.2)
  constructor
  · rintro rfl
    simpa [h₂.pointers b p hq] using hpa.symm
  · rintro rfl
    exact Option.some.inj ((h₂.found a p hpa).symm.trans hq)

/-- The table comes about from the initial one by queries, some of which may have failed. -/
def Reachable (types : TypeTable) : Prop := ∃ queries, initial.askAll queries = types

theorem Reachable.interned (h : types.Reachable) : types.Interned := by
  obtain ⟨queries, rfl⟩ := h
  exact (initial_interned.askAll queries).1

/-- In every table that queries lead to, the primitives come first and in order, each later entry is
a pointer to an earlier one, and the index of pointer types lists exactly these entries. So an entry
occurs once, pointer types that are asked for at any two times are equal exactly if their pointees
are, and an entry never changes. A pointer type can be had for the registered types only, and each
of them has a name, which more steps of the walk to it do not change. -/
theorem reachable_interned (h : types.Reachable) :
    types.infos.toList.take Primitive.all.length = Primitive.all.map .primitive ∧
    (∀ i, Primitive.all.length ≤ i → i < types.size → ∃ t, types.infos[i]? = some (.pointer t) ∧
      t.index < i) ∧
    (∀ t id, types.pointers.lookup t = some id ↔ types.infos[id.index]? = some (.pointer t)) ∧
    (∀ (i j : Nat) info, types.infos[i]? = some info → types.infos[j]? = some info → i = j) ∧
    (∀ a b p q queries types₁ types₂, types.pointerTo a = .ok (p, types₁) →
      (types₁.askAll queries).pointerTo b = .ok (q, types₂) → (p = q ↔ a = b)) ∧
    (∀ id info queries, types.info id = .ok info → (types.askAll queries).info id = .ok info) ∧
    (∀ t, types.size ≤ t.index → types.pointerTo t = .error (.unregisteredPointee t)) ∧
    (∀ t, t.index < types.size → ∃ id types', types.pointerTo t = .ok (id, types')) ∧
    ∀ id, id.index < types.size → ∃ name, types.name id = .ok name ∧
      ∀ steps, types.size < steps → types.nameFrom 0 id steps = .ok name := by
  have hinterned := h.interned
  refine ⟨?_, ?_, fun t id => hinterned.lookup_iff, fun i j info => hinterned.unique,
    ?_, ?_, ?_, ?_, ?_⟩
  · apply List.ext_getElem?
    intro i
    by_cases hi : i < Primitive.all.length
    · rw [List.getElem?_take_of_lt hi, Array.getElem?_toList, List.getElem?_map,
        hinterned.primitives i _ (List.getElem?_eq_getElem hi), List.getElem?_eq_getElem hi]
      rfl
    · rw [List.getElem?_take_eq_none (by omega), List.getElem?_eq_none
        (by simp only [List.length_map]; omega)]
  · intro i hle hlt
    obtain ⟨t, ht⟩ := hinterned.later i _ (Array.getElem?_eq_getElem hlt) hle
    have hentry : types.infos[i]? = some (.pointer t) := by rw [Array.getElem?_eq_getElem hlt, ht]
    exact ⟨t, hentry, hinterned.pointees i t hentry⟩
  · exact fun a b p q queries types₁ types₂ => hinterned.pointerTo_inj
  · intro id info queries hinfo
    rw [info_eq_ok] at hinfo ⊢
    exact (hinterned.askAll queries).2 _ _ hinfo
  · exact fun t ht => hinterned.toSound.pointerTo_error (Nat.not_lt.mpr ht)
  · exact fun t ht => Registered.pointerTo ht
  · intro id hid
    obtain ⟨depth, p, hname⟩ := hinterned.toSound.nameFrom_eq hid
    exact ⟨_, hname 0 (types.size + 1) (by omega), fun steps hsteps => hname 0 steps (by omega)⟩

/-- Asks for pointers to pointers, again for the types made on the way, for an unknown id and for an
unknown name. -/
def chainQueries : List Query :=
  [.byName "**u8", .pointerTo ⟨99⟩, .pointerTo ⟨1⟩, .byName "*nope", .name ⟨12⟩,
    .pointerTo ⟨12⟩, .byName "*i8"]

theorem reachable_interned_chain :
    ∃ types : TypeTable, types.Reachable ∧ types.size = 15 ∧
      types.infos[13]? = some (.pointer ⟨12⟩) ∧ types.pointers.lookup ⟨12⟩ = some ⟨13⟩ ∧
      types.pointerTo ⟨99⟩ = .error (.unregisteredPointee ⟨99⟩) ∧
      ∃ name, types.name ⟨13⟩ = .ok name := by
  have hreachable : (initial.askAll chainQueries).Reachable := ⟨chainQueries, rfl⟩
  obtain ⟨-, -, hlookup, -, -, -, herror, -, hname⟩ := reachable_interned hreachable
  have hsize : (initial.askAll chainQueries).size = 15 := by decide +kernel
  have hentry : (initial.askAll chainQueries).infos[13]? = some (.pointer ⟨12⟩) := by decide +kernel
  obtain ⟨name, hname, -⟩ := hname ⟨13⟩ (by rw [hsize]; decide)
  exact ⟨_, hreachable, hsize, hentry, (hlookup ⟨12⟩ ⟨13⟩).mpr hentry, herror ⟨99⟩
    (by rw [hsize]; decide), name, hname⟩

end MicroCompiler.TypeTable
