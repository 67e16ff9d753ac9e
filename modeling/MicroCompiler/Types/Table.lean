import MicroCompiler.Types.Primitive

/-! The types known to a compilation. The primitives come first; after them every type is a pointer
to an earlier one. A pointer type is made once and found again by its pointee, so equal types have
equal ids. -/

namespace MicroCompiler

/-- The position of a type in the table. -/
structure TypeId where
  index : Nat
  deriving DecidableEq, Repr, Inhabited

namespace TypeId

def i64 : TypeId := ⟨6⟩
def u64 : TypeId := ⟨7⟩
def f32 : TypeId := ⟨8⟩
def f64 : TypeId := ⟨9⟩
def bool : TypeId := ⟨10⟩

/-- Whether the id is that of a primitive. -/
def isPrimitive (id : TypeId) : Bool := id.index < Primitive.all.length

def render (id : TypeId) : String := s!"TypeId({id.index})"

end TypeId

inductive TypeInfo where
  | primitive (p : Primitive)
  | pointer (pointee : TypeId)
  deriving DecidableEq, Repr, Inhabited

namespace TypeInfo

/-- The size in bytes; pointers are words. -/
def size : TypeInfo → Nat
  | .primitive p => p.size
  | .pointer _ => 8

def align (t : TypeInfo) : Nat := t.size

def isInt : TypeInfo → Bool
  | .primitive p => p.isInt
  | .pointer _ => false

def isFloat : TypeInfo → Bool
  | .primitive p => p.isFloat
  | .pointer _ => false

def isUnsigned : TypeInfo → Bool
  | .primitive p => p.isUnsigned
  | .pointer _ => false

def isPointer : TypeInfo → Bool
  | .primitive _ => false
  | .pointer _ => true

def pointee? : TypeInfo → Option TypeId
  | .primitive _ => none
  | .pointer t => some t

/-- The classes of a type as a bit set: primitive, integer, unsigned, floating point, pointer. -/
def flags (t : TypeInfo) : Nat :=
  (!t.isPointer).toNat + 2 * t.isInt.toNat + 4 * t.isUnsigned.toNat + 8 * t.isFloat.toNat +
    16 * t.isPointer.toNat

end TypeInfo

structure TypeTable where
  infos : Array TypeInfo
  /-- The pointer type of each pointee that has one. -/
  pointers : List (TypeId × TypeId)
  deriving Repr

namespace TypeTable

inductive Error where
  | unregistered (id : TypeId) (count : Nat)
  | unregisteredPointee (id : TypeId)
  /-- A pointer type leads back to itself. -/
  | cycle (id : TypeId)
  deriving DecidableEq, Repr

def Error.message : Error → String
  | .unregistered id count => s!"{id.render} is not registered ({count} types)"
  | .unregisteredPointee id => s!"{id.render} is not registered"
  | .cycle id => s!"{id.render} points to itself"

/-- The table that holds the primitives only. -/
def initial : TypeTable := ⟨(Primitive.all.map .primitive).toArray, []⟩

def size (types : TypeTable) : Nat := types.infos.size

def info (types : TypeTable) (id : TypeId) : Except Error TypeInfo :=
  match types.infos[id.index]? with
  | some t => .ok t
  | none => .error (.unregistered id types.size)

/-- The pointer type to a registered type, made on the first request. -/
def pointerTo (types : TypeTable) (pointee : TypeId) : Except Error (TypeId × TypeTable) :=
  match types.pointers.lookup pointee with
  | some id => .ok (id, types)
  | none =>
    if pointee.index < types.size then
      let id : TypeId := ⟨types.size⟩
      .ok (id, ⟨types.infos.push (.pointer pointee), (pointee, id) :: types.pointers⟩)
    else .error (.unregisteredPointee pointee)

/-- The type behind `depth` further stars. -/
def pointerChain (types : TypeTable) (id : TypeId) : Nat → Except Error (TypeId × TypeTable)
  | 0 => .ok (id, types)
  | depth + 1 => do
    let (id, types) ← types.pointerTo id
    types.pointerChain id depth

/-- The type spelled by a primitive name behind any number of stars. Other texts spell no type and
leave the table as it is. -/
def byName (types : TypeTable) (name : String) : Except Error (Option TypeId × TypeTable) :=
  let stars := (name.toList.takeWhile (· = '*')).length
  let base := String.ofList (name.toList.drop stars)
  match Primitive.all.findIdx? (·.name == base) with
  | none => .ok (none, types)
  | some i => (types.pointerChain ⟨i⟩ stars).map fun (id, types) => (some id, types)

/-- The spelling of a type behind `stars` stars. The last argument bounds the number of further
ones. -/
def nameFrom (types : TypeTable) (stars : Nat) (id : TypeId) : Nat → Except Error String
  | 0 => .error (.cycle id)
  | steps + 1 => do
    match ← types.info id with
    | .primitive p => pure (String.ofList (List.replicate stars '*') ++ p.name)
    | .pointer pointee => types.nameFrom (stars + 1) pointee steps

/-- The spelling of a type. Pointees are older than their pointers, so the size of the table bounds
the stars. -/
def name (types : TypeTable) (id : TypeId) : Except Error String :=
  types.nameFrom 0 id (types.size + 1)

def render (types : TypeTable) : String :=
  "TypeRegistry \x7b len: " ++ s!"{types.size}" ++ ", .. \x7d"

end TypeTable

end MicroCompiler
