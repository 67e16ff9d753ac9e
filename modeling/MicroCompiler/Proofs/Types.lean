import Mathlib.Order.Basic
import Mathlib.Tactic.ByContra
import MicroCompiler.Types.Table

/-! Type tables. A table that was made from the initial one by asking for pointer types holds the
primitives at their ids, lists every pointee before its pointer, and finds pointer types under their
pointees. Tables only grow, so what an id means never changes. -/

namespace MicroCompiler

/-- The second table begins with all entries of the first. -/
def Grown (xs ys : Array α) : Prop := ∀ (i : Nat) a, xs[i]? = some a → ys[i]? = some a

namespace Grown

variable {xs ys zs : Array α}

theorem refl (xs : Array α) : Grown xs xs := fun _ _ h => h

theorem trans (h : Grown xs ys) (h' : Grown ys zs) : Grown xs zs := fun i a hi => h' i a (h i a hi)

theorem append (xs ys : Array α) : Grown xs (xs ++ ys) := by
  intro i a h
  obtain ⟨hi, -⟩ := Array.getElem?_eq_some_iff.mp h
  rw [Array.getElem?_append_left hi, h]

theorem push (xs : Array α) (a : α) : Grown xs (xs.push a) := by
  rw [Array.push_eq_append]
  exact append xs #[a]

theorem size_le (h : Grown xs ys) : xs.size ≤ ys.size := by
  by_contra hlt
  have hy : ys.size < xs.size := by omega
  have hys := h ys.size xs[ys.size] (Array.getElem?_eq_getElem hy)
  simp at hys

theorem lt_size (h : Grown xs ys) {i : Nat} (hi : i < xs.size) : i < ys.size :=
  Nat.lt_of_lt_of_le hi h.size_le

end Grown

namespace TypeTable

theorem info_eq_ok {types : TypeTable} {t : TypeId} {info : TypeInfo} :
    types.info t = .ok info ↔ types.infos[t.index]? = some info := by
  unfold TypeTable.info
  cases types.infos[t.index]? <;> simp

/-- Whether an id belongs to a type of the table. -/
def Registered (types : TypeTable) (t : TypeId) : Prop := t.index < types.infos.size

theorem Registered.info {types : TypeTable} {t : TypeId} (h : types.Registered t) :
    ∃ info, types.infos[t.index]? = some info := ⟨_, Array.getElem?_eq_getElem h⟩

theorem registered_of_info {types : TypeTable} {t : TypeId} {info : TypeInfo}
    (h : types.infos[t.index]? = some info) : types.Registered t :=
    (Array.getElem?_eq_some_iff.mp h).1

/-- A pointer type is found, or is made for a registered pointee. -/
theorem pointerTo_eq_ok {types types' : TypeTable} {t id : TypeId} :
    types.pointerTo t = .ok (id, types') ↔ types.pointers.lookup t = some id ∧ types' = types ∨
      types.pointers.lookup t = none ∧ types.Registered t ∧ id = ⟨types.size⟩ ∧
        types' = ⟨types.infos.push (.pointer t), (t, ⟨types.size⟩) :: types.pointers⟩ := by
  unfold TypeTable.pointerTo Registered size
  cases types.pointers.lookup t with
  | some known => simp [eq_comm]
  | none =>
    by_cases hlt : t.index < types.infos.size
    · simp [hlt, eq_comm]
    · simp [hlt]

/-- A table as it comes about from the initial one. -/
structure Sound (types : TypeTable) : Prop where
  primitives : ∀ (i : Nat) p, Primitive.all[i]? = some p → types.infos[i]? = some (.primitive p)
  /-- Pointees are older than their pointers. -/
  pointees : ∀ (i : Nat) t, types.infos[i]? = some (.pointer t) → t.index < i
  pointers : ∀ (t id : TypeId), types.pointers.lookup t = some id →
    types.infos[id.index]? = some (.pointer t)

theorem initial_sound : initial.Sound where
  primitives i p h := by simp [initial, h]
  pointees i t h := by simp [initial] at h
  pointers t id h := by simp [initial] at h

namespace Sound

variable {types : TypeTable}

theorem bool_info (h : types.Sound) : types.infos[TypeId.bool.index]? = some (.primitive .bool) :=
  h.primitives 10 .bool rfl

theorem primitive_registered (h : types.Sound) {i : Nat} (hi : i < Primitive.all.length) :
    types.Registered ⟨i⟩ :=
  registered_of_info (h.primitives i _ (List.getElem?_eq_getElem hi))

theorem pointee_registered (h : types.Sound) {p t : TypeId}
    (hp : types.infos[p.index]? = some (.pointer t)) :
    types.Registered t :=
  Nat.lt_trans (h.pointees p.index t hp) (registered_of_info hp)

/-- Asking for a pointer type keeps the table sound and all its entries, and afterwards the type is
found. -/
theorem pointerTo (h : types.Sound) {t id : TypeId} {types' : TypeTable}
    (hrun : types.pointerTo t = .ok (id, types')) :
    types'.Sound ∧ Grown types.infos types'.infos ∧ types'.pointers.lookup t = some id := by
  rcases pointerTo_eq_ok.mp hrun with ⟨hfound, rfl⟩ | ⟨-, ht, rfl, rfl⟩
  · exact ⟨h, Grown.refl _, hfound⟩
  have hgrown : Grown types.infos (types.infos.push (.pointer t)) := Grown.push _ _
  refine ⟨⟨?_, ?_, ?_⟩, hgrown, by simp⟩
  · intro i p hp
    exact hgrown i _ (h.primitives i p hp)
  · intro i u hu
    rw [Array.getElem?_push] at hu
    split at hu
    next heq =>
      obtain rfl : t = u := by simpa using hu
      rw [heq]
      exact ht
    next => exact h.pointees i u hu
  · intro u id hu
    rw [List.lookup_cons] at hu
    split at hu
    next heq =>
      obtain rfl : u = t := by simpa using heq
      obtain rfl : ⟨types.size⟩ = id := by simpa using hu
      simp [size]
    next => exact hgrown _ _ (h.pointers u id hu)

end Sound

end TypeTable

end MicroCompiler
