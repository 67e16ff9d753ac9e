import MicroCompiler.Proofs.Ssa.Edit
import MicroCompiler.Ssa.Script

/-! Build scripts as chains of edits. A script is proper if it names only registered types and
values of the function being built; the builder itself checks less. Main statement: `runAll_edits`,
every script that runs through is a chain of edits, with good ids throughout if it is proper. -/

namespace MicroCompiler.Ssa

/-- Whether a type given by its id is registered. -/
def TypeRef.isRegistered (types : TypeTable) : TypeRef → Bool
  | .id t => t.index < types.size
  | .named _ => true

namespace Step

/-- The types that a call names. -/
def typeRefs : Step → List TypeRef
  | .resolve t | .constant t _ | .alloca t => [t]
  | .function _ args result | .foreign _ _ args result _ => args ++ result.toList
  | _ => []

/-- The values that a call names. -/
def operands : Step → List ValueId
  | .binary _ lhs rhs | .icmp _ lhs rhs | .fcmp _ lhs rhs => [lhs, rhs]
  | .load address => [address]
  | .store address value => [address, value]
  | .call _ args => args
  | .branch condition _ _ => [condition]
  | .ret value => [value]
  | _ => []

/-- Whether a call names registered types and values of the current function only. -/
def isProper (b : Builder) (s : Step) : Bool :=
  s.typeRefs.all (·.isRegistered b.types) && s.operands.all fun v => (b.valueType v).isOk

/-- Whether all calls of a script do. -/
def allProper (b : Builder) : List Step → Bool
  | [] => true
  | s :: rest => s.isProper b && (s.run b).toOption.all fun (_, b) => allProper b rest

end Step

section

open Builder

variable {p : Prop} {b b' : Builder}

theorem pointerChain_edits {types : TypeTable} {t t' : TypeId} {depth : Nat}
    (h : b.types.pointerChain t depth = .ok (t', types)) (htypes : b.types.Sound)
    (ht : b.types.Registered t) : Edits p b { b with types } ∧ types.Registered t' := by
  induction depth generalizing b t with
  | zero =>
    cases h
    exact ⟨.refl, ht⟩
  | succ depth ih =>
    simp only [TypeTable.pointerChain, bind_eq_ok] at h
    obtain ⟨⟨u, types₁⟩, hpointer, hrest⟩ := h
    obtain ⟨hsound, -, hfound⟩ := htypes.pointerTo hpointer
    have hu : types₁.Registered u := TypeTable.registered_of_info (hsound.pointers t u hfound)
    obtain ⟨hedits, ht'⟩ := ih (b := { b with types := types₁ }) hrest hsound hu
    exact ⟨.head (.pointer hpointer) hedits, ht'⟩

theorem resolve_edits {r : TypeRef} {t : TypeId} (h : r.resolve b = .ok (t, b'))
    (htypes : b.types.Sound) :
    Edits p b b' ∧ (r.isRegistered b.types = true → b'.types.Registered t) := by
  cases r with
  | id u =>
    cases h
    exact ⟨.refl, fun ht => (of_decide_eq_true ht : _ < b.types.size)⟩
  | named name =>
    simp only [TypeRef.resolve, resolveType, bind_eq_ok, mapError_eq_ok, TypeTable.byName] at h
    obtain ⟨⟨found, types⟩, hname, hr⟩ := h
    split at hname
    next =>
      cases hname
      cases hr
    next i hi =>
      obtain ⟨⟨u, types'⟩, hchain, hr'⟩ := map_eq_ok.mp hname
      cases hr'
      cases hr
      have hlt : i < Primitive.all.length := (List.findIdx?_eq_some_iff_getElem.mp hi).1
      obtain ⟨hedits, ht⟩ := pointerChain_edits (p := p) hchain htypes
        (htypes.primitive_registered hlt)
      exact ⟨hedits, fun _ => ht⟩

theorem TypeRef.isRegistered_mono {types types' : TypeTable}
    (hgrown : Grown types.infos types'.infos) {r : TypeRef}
    (h : r.isRegistered types = true) : r.isRegistered types' = true := by
  cases r with
  | id t => exact decide_eq_true (hgrown.lt_size (of_decide_eq_true h))
  | named name => rfl

theorem resolveAll_edits {rs : List TypeRef} {ts : List TypeId} (h : resolveAll b rs = .ok (ts, b'))
    (htypes : b.types.Sound) :
    Edits p b b' ∧ (rs.all (·.isRegistered b.types) = true → ∀ t ∈ ts, b'.types.Registered t) := by
  induction rs generalizing b ts with
  | nil =>
    cases h
    exact ⟨.refl, fun _ t ht => absurd ht List.not_mem_nil⟩
  | cons r rs ih =>
    simp only [resolveAll, bind_eq_ok] at h
    obtain ⟨⟨t, b₁⟩, hfirst, ⟨ts, b₂⟩, hrest, hr⟩ := h
    cases hr
    obtain ⟨hedits₁, ht⟩ := resolve_edits (p := p) hfirst htypes
    obtain ⟨hsound, hgrown₁⟩ := hedits₁.types htypes
    obtain ⟨hedits₂, hts⟩ := ih hrest hsound
    obtain ⟨-, hgrown₂⟩ := hedits₂.types hsound
    refine ⟨hedits₁.trans hedits₂, ?_⟩
    intro hall u hu
    simp only [List.all_cons, Bool.and_eq_true, List.all_eq_true] at hall
    rcases List.mem_cons.mp hu with rfl | hu
    · exact hgrown₂.lt_size (ht hall.1)
    · refine hts (List.all_eq_true.mpr fun r hr => ?_) u hu
      exact TypeRef.isRegistered_mono hgrown₁ (hall.2 r hr)

theorem resolveOption_edits {r : Option TypeRef} {t : Option TypeId}
    (h : resolveOption b r = .ok (t, b')) (htypes : b.types.Sound) :
    Edits p b b' ∧ (r.toList.all (·.isRegistered b.types) = true → ∀ u ∈ t,
      b'.types.Registered u) := by
  cases r with
  | none =>
    cases h
    exact ⟨.refl, fun _ u hu => by cases hu⟩
  | some r =>
    simp only [resolveOption, bind_eq_ok] at h
    obtain ⟨⟨t, b₁⟩, hfirst, hr⟩ := h
    cases hr
    obtain ⟨hedits, ht⟩ := resolve_edits (p := p) hfirst htypes
    refine ⟨hedits, fun hall u hu => ?_⟩
    obtain rfl : t = u := by simpa using hu
    exact ht (by simpa using hall)

end

namespace Step

open Builder

variable {b b' : Builder} {s : Step} {r : Option Nat}

theorem answering_eq_ok {result : Except Fault (ValueId × Builder)}
    (h : answering result = .ok (r, b')) : ∃ v, result = .ok (v, b') := by
  obtain ⟨⟨v, b₁⟩, hresult, hr⟩ := map_eq_ok.mp h
  cases hr
  exact ⟨v, hresult⟩

theorem silently_eq_ok {result : Except Fault Builder} (h : silently result = .ok (r, b')) :
    result = .ok b' := by
  obtain ⟨b₁, hresult, hr⟩ := map_eq_ok.mp h
  cases hr
  exact hresult

/-- The types of a function that a step adds, resolved. -/
theorem signature_edits {p : Prop} {args : List TypeRef} {result : Option TypeRef}
    {ts : List TypeId} {t : Option TypeId} {b₁ b₂ : Builder}
    (hargs : resolveAll b args = .ok (ts, b₁)) (hresult : resolveOption b₁ result = .ok (t, b₂))
    (htypes : b.types.Sound)
    (hp : p → (args ++ result.toList).all (·.isRegistered b.types) = true) :
    Edits p b b₂ ∧ (p → ∀ t ∈ ts, b₂.types.Registered t) ∧
    (p → ∀ u ∈ t, b₂.types.Registered u) := by
  obtain ⟨hedits₁, hts⟩ := resolveAll_edits (p := p) hargs htypes
  obtain ⟨hsound, hgrown₁⟩ := hedits₁.types htypes
  obtain ⟨hedits₂, ht⟩ := resolveOption_edits (p := p) hresult hsound
  obtain ⟨-, hgrown₂⟩ := hedits₂.types hsound
  simp only [List.all_append, Bool.and_eq_true, List.all_eq_true] at hp
  refine ⟨hedits₁.trans hedits₂, ?_, ?_⟩
  · intro h u hu
    exact hgrown₂.lt_size (hts (List.all_eq_true.mpr (hp h).1) u hu)
  · intro h
    exact ht (List.all_eq_true.mpr fun r hr => TypeRef.isRegistered_mono hgrown₁ ((hp h).2 r hr))

/-- A step that succeeds is a chain of edits. -/
theorem run_edits (h : s.run b = .ok (r, b')) (htypes : b.types.Sound) :
    Edits (s.isProper b = true) b b' := by
  have hrefs : s.isProper b = true → s.typeRefs.all (·.isRegistered b.types) = true := by
    intro hproper
    simp only [isProper, Bool.and_eq_true] at hproper
    exact hproper.1
  cases s with
  | resolve type =>
    obtain ⟨⟨t, b₁⟩, hresolve, hr⟩ := map_eq_ok.mp h
    cases hr
    exact (resolve_edits hresolve htypes).1
  | function name args result =>
    simp only [run, bind_eq_ok] at h
    obtain ⟨⟨ts, b₁⟩, hargs, ⟨t, b₂⟩, hresult, ⟨id, b₃⟩, hbegin, hr⟩ := h
    cases hr
    obtain ⟨hedits, hts, ht⟩ := signature_edits hargs hresult htypes hrefs
    obtain ⟨hsize, rfl⟩ := beginFunction_eq_ok hbegin
    exact hedits.tail (.begin name ts t hsize hts ht)
  | foreign name library args result variadic =>
    simp only [run, bind_eq_ok] at h
    obtain ⟨⟨ts, b₁⟩, hargs, ⟨t, b₂⟩, hresult, ⟨id, b₃⟩, hdeclare, hr⟩ := h
    cases hr
    obtain ⟨hedits, hts, ht⟩ := signature_edits hargs hresult htypes hrefs
    obtain ⟨hsize, rfl⟩ := declareForeign_eq_ok hdeclare
    exact hedits.tail (.declare name library ts t variadic hsize hts ht)
  | renew =>
    cases h
    exact .single (.renew b)
  | arg index =>
    obtain ⟨v, -, hr⟩ := map_eq_ok.mp h
    cases hr
    exact .refl
  | createBlock =>
    obtain ⟨⟨block, b₁⟩, hcreate, hr⟩ := map_eq_ok.mp h
    cases hr
    obtain ⟨c, f, hat, rfl⟩ := createBlock_eq_ok hcreate
    exact .single (.block hat)
  | switchTo block =>
    obtain ⟨c, f, hat, hclosed, hblock, rfl⟩ := switchTo_eq_ok (silently_eq_ok h)
    exact .single (.start hat hclosed hblock)
  | constant type value =>
    simp only [run, bind_eq_ok] at h
    obtain ⟨⟨t, b₁⟩, hresolve, hr⟩ := h
    obtain ⟨v, hconstant⟩ := answering_eq_ok hr
    obtain ⟨hedits, ht⟩ := resolve_edits (p := ((constant type value).isProper b = true))
      hresolve htypes
    refine hedits.tail (constant_wrote hconstant fun hp => ht ?_).edit
    simpa [typeRefs] using hrefs hp
  | binary op lhs rhs =>
    obtain ⟨v, hv⟩ := answering_eq_ok h
    exact .single (binary_wrote hv).edit
  | icmp pred lhs rhs =>
    obtain ⟨v, hv⟩ := answering_eq_ok h
    exact .single (icmp_wrote hv).edit
  | fcmp pred lhs rhs =>
    obtain ⟨v, hv⟩ := answering_eq_ok h
    exact .single (fcmp_wrote hv).edit
  | alloca type =>
    simp only [run, bind_eq_ok] at h
    obtain ⟨⟨t, b₁⟩, hresolve, hr⟩ := h
    obtain ⟨v, halloca⟩ := answering_eq_ok hr
    obtain ⟨hedits, -⟩ := resolve_edits (p := ((alloca type).isProper b = true)) hresolve htypes
    obtain ⟨pointer, types, c, f, hpointer, hat, rfl⟩ := alloca_eq_ok halloca
    obtain ⟨-, -, hfound⟩ := (hedits.types htypes).1.pointerTo hpointer
    exact (hedits.tail (.pointer hpointer)).tail (.slot hat hfound)
  | load address =>
    obtain ⟨v, hv⟩ := answering_eq_ok h
    exact .single (load_wrote hv).edit
  | store address value => exact .single (store_wrote (silently_eq_ok h)).edit
  | call callee args =>
    obtain ⟨⟨v, b₁⟩, hcall, hr⟩ := map_eq_ok.mp h
    cases hr
    refine .single (Wrote.edit (call_wrote hcall fun hp v hv => ?_))
    simp only [isProper, operands, Bool.and_eq_true, List.all_eq_true] at hp
    have hok := hp.2 v hv
    cases hv : b.valueType v with
    | error e => simp [hv, Except.isOk, Except.toBool] at hok
    | ok t => exact ⟨t, rfl⟩
  | jump target => exact .single (jump_wrote (silently_eq_ok h)).edit
  | branch condition consequent alternative => exact .single (branch_wrote (silently_eq_ok h)).edit
  | ret value => exact .single (ret_wrote (silently_eq_ok h)).edit
  | retVoid => exact .single (retVoid_wrote (silently_eq_ok h)).edit

/-- A script that runs through is a chain of edits. -/
theorem runAll_edits {steps : List Step} (h : runAll b steps = .ok b') (htypes : b.types.Sound) :
    Edits (allProper b steps = true) b b' := by
  induction steps generalizing b with
  | nil =>
    cases h
    exact .refl
  | cons s rest ih =>
    simp only [runAll, List.foldlM_cons, bind_eq_ok, map_eq_ok] at h
    obtain ⟨b₁, ⟨⟨r, b₁⟩, hrun, rfl⟩, hrest⟩ := h
    have hfirst := run_edits hrun htypes
    have hothers := ih hrest (hfirst.types htypes).1
    have hsplit : allProper b (s :: rest) = true → s.isProper b = true ∧
        allProper b₁ rest = true := by
      intro hall
      simpa [allProper, hrun, Except.toOption] using hall
    exact (hfirst.mono fun hall => (hsplit hall).1).trans (hothers.mono fun hall => (hsplit hall).2)

end Step

end MicroCompiler.Ssa
