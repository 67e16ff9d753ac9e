import MicroCompiler.Decimal.Layout
import MicroCompiler.Ssa.Function

/-! Functions and modules as text. A function is listed block by block, one instruction on a line;
constants are written as their type reads them. -/

namespace MicroCompiler.Ssa

/-- A 64-bit word in hexadecimal. -/
def hexText (n : UInt64) : String := "0x" ++ String.ofList (Nat.toDigits 16 n.toNat)

/-- A constant of a type: floats by their shortest digits, pointers in hexadecimal, integers by
their sign. -/
def constantText (info : TypeInfo) (value : UInt64) : String :=
  if info.isFloat then
    if info.size = 4 then Decimal.single.text value.toUInt32.toNat
    else Decimal.double.text value.toNat
  else if info.isPointer then hexText value
  else if info.isUnsigned then toString value.toNat
  else toString value.toInt64.toInt

namespace Function

private def typeText (types : TypeTable) (t : TypeId) : Except Fault String :=
  (types.name t).mapError .types

private def valueText (f : Function) (types : TypeTable) (v : ValueId) : Except Fault String := do
  typeText types (← f.valueType v)

private def joined (parts : List String) : String := ", ".intercalate parts

/-- One instruction without its indentation. -/
def instructionText (f : Function) (m : Module) (types : TypeTable) :
    Instruction → Except Fault String
  | .allocStack => do
    let slots ← f.locals.toList.mapM fun l => do
      pure s!"{l.value.render}: {← typeText types l.type}"
    pure (if slots.isEmpty then "alloc_stack" else "alloc_stack " ++ joined slots)
  | .constant r value => do
    let t ← f.valueType r
    let name ← typeText types t
    let info ← (types.info t).mapError Fault.types
    pure s!"{r.render} = const {name} {constantText info value}"
  | .binary op r a b => do
    let type ← f.valueText types a
    pure s!"{r.render} = {op.mnemonic} {type} {a.render}, {b.render}"
  | .icmp pred r a b => do
    let type ← f.valueText types a
    pure s!"{r.render} = icmp {pred.mnemonic} {type} {a.render}, {b.render}"
  | .fcmp pred r a b => do
    let type ← f.valueText types a
    pure s!"{r.render} = fcmp {pred.mnemonic} {type} {a.render}, {b.render}"
  | .load r address => do
    let type ← f.valueText types r
    pure s!"{r.render} = load {type}, {address.render}"
  | .store address v => do
    let type ← f.valueText types v
    pure s!"store {type} {v.render}, {address.render}"
  | .pushArg v => .ok s!"push_arg {v.render}"
  | .call callee _ r => do
    let target ← m.get callee
    match r with
    | some r =>
      let type ← f.valueText types r
      pure s!"{r.render} = call {type} @{target.name}"
    | none => pure s!"call @{target.name}"
  | .jump b => .ok s!"jump {b.render}"
  | .branch c b d => .ok s!"branch {c.render}, {b.render}, {d.render}"
  | .ret v => do
    let type ← f.valueText types v
    pure s!"ret {type} {v.render}"
  | .retVoid => .ok "ret_void"

private def blockText (f : Function) (m : Module) (types : TypeTable) (index : Nat)
    (extent : Option Extent) : Except Fault String := do
  let instructions ← f.extentInstructions extent
  let lines ← instructions.mapM fun i => do pure s!"  {← f.instructionText m types i}\n"
  pure (s!"bb{index}:\n" ++ String.join lines)

/-- The heading: name, arguments and return type. -/
private def signatureText (f : Function) (types : TypeTable) : Except Fault String := do
  let args ← (List.range f.argCount).mapM fun i => do
    let v ← f.arg i
    pure s!"{v.render}: {← f.valueText types v}"
  let args := if f.isVariadic then args ++ ["..."] else args
  let ret ← match f.ret with
    | some t => do pure s!" -> {← typeText types t}"
    | none => pure ""
  pure (s!"func {f.name}(" ++ joined args ++ ")" ++ ret)

/-- The whole function. -/
def text (f : Function) (m : Module) (types : TypeTable) : Except Fault String := do
  let heading ← f.signatureText types
  match f.foreign with
  | some foreign =>
    let library := match foreign.library with
      | some l => " \"" ++ l ++ "\""
      | none => ""
    pure (heading ++ " #foreign" ++ library ++ "\n")
  | none =>
    let blocks ← f.blocks.toList.zipIdx.mapM fun (extent, i) => f.blockText m types i extent
    pure (heading ++ " \x7b\n" ++ String.join blocks ++ "\x7d\n")

end Function

namespace Module

/-- All functions, with an empty line between them. -/
def text (m : Module) (types : TypeTable) : Except Fault String := do
  let texts ← m.functions.toList.mapM fun f => f.text m types
  pure ("\n".intercalate texts)

end Module

end MicroCompiler.Ssa
