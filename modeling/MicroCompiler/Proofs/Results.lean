import Mathlib.Data.List.Forall2
import MicroCompiler.Bounds

/-! Results of computations that may fail. A sequence has a value just if each of its steps has one,
so an equation about the whole comes apart into equations about the steps. -/

namespace MicroCompiler

theorem bind_eq_ok {x : Except ε α} {f : α → Except ε β} {r : β} :
    (x >>= f) = .ok r ↔ ∃ a, x = .ok a ∧ f a = .ok r := by
  cases x <;> simp [bind, Except.bind]

theorem bind_ne_ok {x : Except ε α} {f : α → Except ε β} {r : β} (h : ∀ a, f a ≠ .ok r) :
    (x >>= f) ≠ .ok r := by
  intro hx
  obtain ⟨a, -, ha⟩ := bind_eq_ok.mp hx
  exact h a ha

theorem map_eq_ok {x : Except ε α} {f : α → β} {r : β} :
    x.map f = .ok r ↔ ∃ a, x = .ok a ∧ f a = r := by
  cases x <;> simp [Except.map]

theorem mapError_eq_ok {x : Except ε α} {f : ε → ε'} {r : α} :
    x.mapError f = .ok r ↔ x = .ok r := by
  cases x <;> simp [Except.mapError]

theorem toOption_eq_some {x : Except ε α} {r : α} : x.toOption = some r ↔ x = .ok r := by
  cases x <;> simp [Except.toOption]

theorem mapM_nil_eq_ok {f : α → Except ε β} {ys : List β} : [].mapM f = .ok ys ↔ ys = [] := by
  rw [List.mapM_nil]
  exact ⟨fun h => (Except.ok.inj h).symm, fun h => h ▸ rfl⟩

theorem mapM_cons_eq_ok {f : α → Except ε β} {x : α} {xs : List α} {ys : List β} :
    (x :: xs).mapM f = .ok ys ↔ ∃ y rest, f x = .ok y ∧ xs.mapM f = .ok rest ∧ ys = y :: rest := by
  rw [List.mapM_cons, bind_eq_ok]
  constructor
  · rintro ⟨y, hy, h⟩
    obtain ⟨rest, hrest, h⟩ := bind_eq_ok.mp h
    exact ⟨y, rest, hy, hrest, (Except.ok.inj h).symm⟩
  · rintro ⟨y, rest, hy, hrest, rfl⟩
    exact ⟨y, hy, bind_eq_ok.mpr ⟨rest, hrest, rfl⟩⟩

/-- A list of computations has values just if each of them has one. -/
theorem mapM_eq_ok {f : α → Except ε β} {xs : List α} {ys : List β} :
    xs.mapM f = .ok ys ↔ List.Forall₂ (fun x y => f x = .ok y) xs ys := by
  induction xs generalizing ys with
  | nil => rw [mapM_nil_eq_ok, List.forall₂_nil_left_iff]
  | cons x xs ih => simp only [mapM_cons_eq_ok, List.forall₂_cons_left_iff, ih]

theorem exists_of_mem_left {f : α → Except ε β} {xs : List α} {ys : List β} {x : α}
    (h : xs.mapM f = .ok ys) (hx : x ∈ xs) : ∃ y, f x = .ok y := by
  rw [mapM_eq_ok] at h
  induction h with
  | nil => cases hx
  | @cons _ y _ _ hy _ ih =>
    rcases List.mem_cons.mp hx with rfl | hx
    · exact ⟨y, hy⟩
    · exact ih hx

theorem exists_of_mem_right {f : α → Except ε β} {xs : List α} {ys : List β} {y : β}
    (h : xs.mapM f = .ok ys) (hy : y ∈ ys) : ∃ x ∈ xs, f x = .ok y := by
  rw [mapM_eq_ok] at h
  induction h with
  | nil => cases hy
  | @cons x _ _ _ hx _ ih =>
    rcases List.mem_cons.mp hy with rfl | hy
    · exact ⟨x, List.mem_cons_self, hx⟩
    · obtain ⟨z, hz, hread⟩ := ih hy
      exact ⟨z, List.mem_cons_of_mem x hz, hread⟩

/-- Computations that agree on their values, one by one, lead to others that do. -/
theorem mapM_meet {f : α → Except ε β} {f' : α' → Except ε β} {g : α → Except ε γ}
    {g' : α' → Except ε γ} {xs : List α} {xs' : List α'} {ys : List β}
    (h : ∀ x x' y, f x = .ok y → f' x' = .ok y → ∃ z, g x = .ok z ∧ g' x' = .ok z)
    (hxs : xs.mapM f = .ok ys) (hxs' : xs'.mapM f' = .ok ys) :
    ∃ zs, xs.mapM g = .ok zs ∧ xs'.mapM g' = .ok zs := by
  rw [mapM_eq_ok] at hxs hxs'
  simp only [mapM_eq_ok]
  induction hxs generalizing xs' with
  | nil =>
    obtain rfl := List.forall₂_nil_right_iff.mp hxs'
    exact ⟨[], .nil, .nil⟩
  | cons hx _ ih =>
    obtain ⟨x', rest', hx', hrest', rfl⟩ := List.forall₂_cons_right_iff.mp hxs'
    obtain ⟨z, hz, hz'⟩ := h _ _ _ hx hx'
    obtain ⟨zs, hzs, hzs'⟩ := ih hrest'
    exact ⟨z :: zs, .cons hz hzs, .cons hz' hzs'⟩

theorem fetch_eq_ok {table : Array α} {i : Nat} {a : α} :
    BoundsError.fetch table i = .ok a ↔ table[i]? = some a := by
  unfold BoundsError.fetch
  cases table[i]? <;> simp

theorem minus_of_le {m n : Nat} (h : n ≤ m) : BoundsError.minus m n = .ok (m - n) := if_pos h

end MicroCompiler
