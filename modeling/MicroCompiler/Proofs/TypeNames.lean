import Mathlib.Data.List.TakeWhile
import MicroCompiler.Proofs.TypeInterning

/-! Names of types. A name is a number of stars and the name of a primitive, and it spells the type
at the end of as many pointers. To read a name makes the pointer types that are missing; to write
one walks down the pointers. Both go through the same chain of entries, so each undoes the other.
Main statement: `names_round_trip`. -/

namespace MicroCompiler.TypeTable

variable {types types' types₁ types₂ : TypeTable} {t u id id' : TypeId} {p : Primitive} {i k : Nat}

/-! ### Spellings -/

theorem toList_spelling (k : Nat) (p : Primitive) :
    (spelling k p).toList = List.replicate k '*' ++ p.name.toList := by
  rw [spelling, String.toList_append, String.toList_ofList]

theorem takeWhile_spelling (k : Nat) (p : Primitive) :
    (spelling k p).toList.takeWhile (· = '*') = List.replicate k '*' := by
  have hname : p.name.toList.takeWhile (· = '*') = [] := by cases p <;> decide
  rw [toList_spelling, List.takeWhile_append_of_pos (by simp), hname, List.append_nil]

/-- Primitives are found by their names. -/
theorem findIdx?_name (p : Primitive) :
    ∃ i, Primitive.all.findIdx? (·.name == p.name) = some i ∧ Primitive.all[i]? = some p := by
  cases p <;> exact ⟨_, rfl, rfl⟩

/-- The type that a spelling stands for is as many pointers away from its primitive. -/
theorem byName_spelling (hp : Primitive.all[i]? = some p)
    (hchain : types.pointerChain ⟨i⟩ k = .ok (id, types')) :
    types.byName (spelling k p) = .ok (some id, types') := by
  obtain ⟨j, hj, hall⟩ := findIdx?_name p
  obtain rfl : i = j := primitive_place hp hall
  have hdrop : (spelling k p).toList.drop k = p.name.toList := by
    rw [toList_spelling]
    exact List.drop_left' List.length_replicate
  simp only [byName, takeWhile_spelling, List.length_replicate, hdrop,
    String.ofList_toList, hj, hchain]
  rfl

/-- A text that spells no type changes nothing. -/
theorem byName_of_ne {s : String} (h : ∀ k p, s ≠ spelling k p) (types : TypeTable) :
    types.byName s = .ok (none, types) := by
  simp only [byName]
  split
  next => rfl
  next i hi =>
    obtain ⟨hlt, hbase, -⟩ := List.findIdx?_eq_some_iff_getElem.mp hi
    have hstars : s.toList.takeWhile (· = '*') = List.replicate (s.toList.takeWhile (· =
        '*')).length '*' :=
      List.eq_replicate_of_mem fun c hc => by simpa using List.mem_takeWhile_imp hc
    -- The stars in front and what is behind them are the text.
    have hsplit := List.prefix_iff_eq_append.mp (List.takeWhile_prefix (· = '*') (l := s.toList))
    refine absurd ?_ (h (s.toList.takeWhile (· = '*')).length Primitive.all[i])
    rw [← String.toList_inj, toList_spelling, ← hstars, eq_of_beq hbase,
      String.toList_ofList, hsplit]

/-! ### To write a name -/

theorem Spells.grown (h : types.Spells id k p) (hgrown : Grown types.infos types'.infos) :
    types'.Spells id k p := by
  induction h with
  | primitive hentry => exact .primitive (hgrown _ _ hentry)
  | pointer hentry _ ih => exact .pointer (hgrown _ _ hentry) ih

theorem Spells.registered (h : types.Spells id k p) : types.Registered id := by
  cases h with
  | primitive hentry => exact registered_of_info hentry
  | pointer hentry _ => exact registered_of_info hentry

theorem Spells.name_eq (hsound : types.Sound) (h : types.Spells id k p) :
    types.name id = .ok (spelling k p) := by
  have hle := h.le_index hsound
  have hlt : id.index < types.size := h.registered
  rw [TypeTable.name, h.nameFrom_eq 0 (by omega), Nat.zero_add]

/-- A name stays what it is as the table grows. -/
theorem Sound.name_grown (h : types.Sound) (h' : types'.Sound)
    (hgrown : Grown types.infos types'.infos) (hid : types.Registered id) :
    types'.name id = types.name id := by
  obtain ⟨k, p, hspells⟩ := h.spells hid
  rw [hspells.name_eq h, (hspells.grown hgrown).name_eq h']

/-! ### To read a name -/

/-- One more star is one more pointer at the end. -/
theorem pointerChain_snoc (h : types.pointerChain t k = .ok (u, types₁))
    (hlast : types₁.pointerTo u = .ok (id, types₂)) :
    types.pointerChain t (k + 1) = .ok (id, types₂) := by
  induction k generalizing types t with
  | zero =>
    cases h
    simp [pointerChain, hlast, bind, Except.bind]
  | succ k ih =>
    cases hfirst : types.pointerTo t with
    | error e => simp [pointerChain, hfirst, bind, Except.bind] at h
    | ok made =>
      simp only [pointerChain, hfirst, bind, Except.bind] at h
      rw [pointerChain]
      simp only [hfirst, bind, Except.bind]
      exact ih h

theorem pointerTo_size (h : types.pointerTo t = .ok (id, types')) :
    types'.size ≤ types.size + 1 := by
  rcases pointerTo_eq_ok.mp h with ⟨-, rfl⟩ | ⟨-, -, -, rfl⟩
  · exact Nat.le_succ _
  · simp [size]

/-- The type at the end of a chain of pointers is made from the types on the way, each of them at
most once. -/
theorem Interned.pointerChain (h : types.Interned) (hp : Primitive.all[i]? = some p) (k : Nat) :
    ∃ id types', types.pointerChain ⟨i⟩ k = .ok (id, types') ∧ types'.Interned ∧
      Grown types.infos types'.infos ∧ types'.size ≤ types.size + k ∧ types'.Spells id k p := by
  induction k with
  | zero => exact ⟨_, _, rfl, h, .refl _, le_rfl, .primitive (h.primitives i p hp)⟩
  | succ k ih =>
    obtain ⟨u, types₁, hchain, h₁, hgrown₁, hsize₁, hspells₁⟩ := ih
    obtain ⟨id, types₂, hlast⟩ := hspells₁.registered.pointerTo
    have h₂ := h₁.pointerTo hlast
    obtain ⟨-, hgrown₂, hfound⟩ := h₁.toSound.pointerTo hlast
    have hsize₂ := pointerTo_size hlast
    refine ⟨id, types₂, pointerChain_snoc hchain hlast, h₂, hgrown₁.trans hgrown₂, by omega, ?_⟩
    exact .pointer (h₂.pointers u id hfound) (hspells₁.grown hgrown₂)

/-- A type that is there already is found, and nothing is made. -/
theorem Interned.pointerChain_spells (h : types.Interned) (hid : types.Spells id k p)
    (hp : Primitive.all[i]? = some p) : types.pointerChain ⟨i⟩ k = .ok (id, types) := by
  induction hid with
  | @primitive id p hentry =>
    have hindex : i = id.index := h.unique (h.primitives i p hp) hentry
    subst hindex
    rfl
  | @pointer id t k p hentry _ ih =>
    exact pointerChain_snoc (ih hp) (pointerTo_eq_ok.mpr (.inl ⟨h.found t id hentry, rfl⟩))

/-! ### Round trips -/

theorem Interned.byName_name (h : types.Interned) (hid : types.Registered id) :
    ∃ s, types.name id = .ok s ∧ types.byName s = .ok (some id, types) := by
  obtain ⟨k, p, hspells⟩ := h.toSound.spells hid
  obtain ⟨i, -, hp⟩ := findIdx?_name p
  exact ⟨spelling k p, hspells.name_eq h.toSound, byName_spelling hp
    (h.pointerChain_spells hspells hp)⟩

theorem Interned.name_byName (h : types.Interned) (k : Nat) (p : Primitive) :
    ∃ id types', types.byName (spelling k p) = .ok (some id, types') ∧
      types'.name id = .ok (spelling k p) ∧ Grown types.infos types'.infos ∧
      types'.size ≤ types.size + k := by
  obtain ⟨i, -, hp⟩ := findIdx?_name p
  obtain ⟨id, types', hchain, h', hgrown, hsize, hspells⟩ := h.pointerChain hp k
  exact ⟨id, types', byName_spelling hp hchain, hspells.name_eq h'.toSound, hgrown, hsize⟩

theorem Interned.name_inj (h : types.Interned) (hid : types.Registered id)
    (hid' : types.Registered id') (heq : types.name id = types.name id') : id = id' := by
  obtain ⟨s, hname, hread⟩ := h.byName_name hid
  obtain ⟨s', hname', hread'⟩ := h.byName_name hid'
  obtain rfl : s = s' := by simpa [hname, hname'] using heq
  simpa [hread] using hread'

/-- In every table that queries lead to, the name of a registered type is read as that type, and the
table stays as it is. The texts that can be read are the spellings, any number of stars in front of
the name of a primitive: what is read has the text for its name afterwards, and no more types were
made than there are stars, so that the ids stay 32-bit numbers if there is room for so many types.
Any other text is read as no type, which changes nothing. So no two registered types have one name,
be they asked now or in any table that comes of this one. -/
theorem names_round_trip (h : types.Reachable) :
    (∀ id, types.Registered id → ∃ s, types.name id = .ok s ∧
      types.byName s = .ok (some id, types)) ∧
    (∀ s, (∃ id types', types.byName s = .ok (some id, types')) ↔ ∃ k p, s = spelling k p) ∧
    (∀ k p, ∃ id types', types.byName (spelling k p) = .ok (some id, types') ∧
      types'.name id = .ok (spelling k p) ∧ Grown types.infos types'.infos ∧
      types'.size ≤ types.size + k ∧ (types.size + k ≤ UInt32.size → ∀ id, types'.Registered id →
        id.index < UInt32.size)) ∧
    (∀ s types', types.byName s = .ok (none, types') ↔ types' = types ∧ ∀ k p, s ≠ spelling k p) ∧
    ∀ queries id id', types.Registered id → (types.askAll queries).Registered id' →
      types.name id = (types.askAll queries).name id' → id = id' := by
  have hinterned := h.interned
  refine ⟨fun id hid => hinterned.byName_name hid, ?_, fun k p => ?_, ?_, ?_⟩
  · intro s
    constructor
    · rintro ⟨id, types', hread⟩
      by_contra hnone
      push Not at hnone
      simp [byName_of_ne hnone] at hread
    · rintro ⟨k, p, rfl⟩
      obtain ⟨id, types', hread, -⟩ := hinterned.name_byName k p
      exact ⟨id, types', hread⟩
  · obtain ⟨id, types', hread, hname, hgrown, hsize⟩ := hinterned.name_byName k p
    refine ⟨id, types', hread, hname, hgrown, hsize, fun hlimit id hid => ?_⟩
    exact (Nat.lt_of_lt_of_le hid hsize).trans_le hlimit
  · intro s types'
    constructor
    · intro hread
      have hnone : ∀ k p, s ≠ spelling k p := by
        rintro k p rfl
        obtain ⟨id, types'', hsome, -⟩ := hinterned.name_byName k p
        simp [hsome] at hread
      exact ⟨by simpa [byName_of_ne hnone] using hread.symm, hnone⟩
    · rintro ⟨rfl, hnone⟩
      exact byName_of_ne hnone _
  · intro queries id id' hid hid' heq
    obtain ⟨hlater, hgrown⟩ := hinterned.askAll queries
    rw [← hinterned.toSound.name_grown hlater.toSound hgrown hid] at heq
    exact hlater.name_inj (hgrown.lt_size hid) hid' heq

/-- A pointer chain that was made piece by piece is read without making a type. Two stars more than
known make at most two types, and a star behind a name spells nothing. -/
theorem names_round_trip_chain :
    ∃ types : TypeTable, types.Reachable ∧ types.size = 15 ∧ types.name ⟨13⟩ = .ok "***u8" ∧
      types.byName "***u8" = .ok (some ⟨13⟩, types) ∧
      (∃ id types', types.byName "**bool" = .ok (some id, types') ∧ types'.name id = .ok "**bool" ∧
        types'.size ≤ 17) ∧
      types.byName "u8*" = .ok (none, types) ∧ ∀ k p, "u8*" ≠ spelling k p := by
  have hreachable : (initial.askAll chainQueries).Reachable := ⟨chainQueries, rfl⟩
  obtain ⟨hread, -, hspelling, hnone, -⟩ := names_round_trip hreachable
  have hsize : (initial.askAll chainQueries).size = 15 := by decide +kernel
  have hname : (initial.askAll chainQueries).name ⟨13⟩ = .ok "***u8" := by decide +kernel
  have hbehind : (initial.askAll chainQueries).byName "u8*" = .ok (none,
    initial.askAll chainQueries) := rfl
  obtain ⟨s, hs, hback⟩ := hread ⟨13⟩ (by rw [Registered, ← size, hsize]; decide)
  obtain rfl : "***u8" = s := by simpa [hname] using hs
  obtain ⟨id, types', hmade, hmadeName, -, hfew, -⟩ := hspelling 2 .bool
  rw [hsize] at hfew
  exact ⟨_, hreachable, hsize, hname, hback, ⟨id, types', hmade, hmadeName, hfew⟩, hbehind,
    ((hnone _ _).mp hbehind).2⟩

end MicroCompiler.TypeTable
