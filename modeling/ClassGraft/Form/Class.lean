import ClassGraft.ClassBuilder
import ClassGraft.ClassModel
import ClassGraft.Form.Node

namespace ClassGraft

instance : ToForm Attribute := ⟨fun a => .list [toForm a.name, .bytes a.info]⟩

instance : ToForm ExceptionEntry :=
  ⟨fun e => .list [toForm e.start, toForm e.stop, toForm e.handler, toForm e.catchIndex]⟩

instance : ToForm CodeAttribute where
  toForm c := .fields [("max_stack", toForm c.maxStack), ("max_locals", toForm c.maxLocals),
    ("bytes", .bytes c.code), ("exceptions", toForm c.exceptions),
    ("attributes", toForm c.attributes)]

instance : ToForm LineEntry := ⟨fun l => .list [toForm l.start, toForm l.line]⟩

instance : ToForm LocalEntry := ⟨fun v =>
  .list [toForm v.start, toForm v.length, toForm v.name, toForm v.descriptor, toForm v.index]⟩

def AttributeKind.contentForm : (k : AttributeKind) → k.Content → Form
  | .code, c => toForm c
  | .stackMapTable, fs => toForm fs
  | .lineNumberTable, ls => toForm ls
  | .localVariableTable, vs | .localVariableTypeTable, vs => toForm vs

instance : OfForm LineEntry := ⟨fun f => return ⟨← f.get 0, ← f.get 1⟩⟩

instance : OfForm ExceptionEntry :=
  ⟨fun f => return ⟨← f.get 0, ← f.get 1, ← f.get 2, ← f.get 3⟩⟩

instance : ToForm TryBlock :=
  ⟨fun t => .list [toForm t.start, toForm t.stop, toForm t.handler, toForm t.caught]⟩

instance : OfForm TryBlock := ⟨fun f => return ⟨← f.get 0, ← f.get 1, ← f.get 2, ← f.get 3⟩⟩

instance : ToForm LocalRange := ⟨fun v => .list [toForm v.name, toForm v.descriptor,
  toForm v.start, toForm v.stop, toForm v.index, toForm v.isSignature]⟩

instance : OfForm LocalRange :=
  ⟨fun f => return ⟨← f.get 0, ← f.get 1, ← f.get 2, ← f.get 3, ← f.get 4, ← f.get 5⟩⟩

instance : ToForm Edit := ⟨fun e => .list [toForm e.anchor, toForm e.inserted, toForm e.removed,
  toForm e.insertedEffect, toForm e.removedEffect, toForm e.isNeutral]⟩

instance : ToForm Body where
  toForm b := .fields [("nodes", toForm b.entries.toList), ("try", toForm b.tryBlocks),
    ("locals", toForm b.locals), ("version", toForm b.version)]

/-- Appends a node, or as many copies of one as are asked for. Without copies the node is not looked
at. -/
def Body.pushForm (b : Body) (f : Form) : FormM Body := do
  if f.word? = some "repeat" then
    let count : Nat ← f.get 1
    if count = 0 then return b
    let n : Node ← f.get 2
    (List.replicate count n).foldlM (fun b n => do return (← b.push n).2) b
  else return (← b.push (← ofForm f)).2

instance : OfForm Body where
  ofForm f := do
    let labels : Option Nat ← ofForm (f.field "labels")
    let start := { Body.empty with nextLabel := labels.getD 0 }
    let b ← (← (f.field "nodes").items).foldlM Body.pushForm start
    return { b with tryBlocks := ← ofForm (f.field "try"), locals := ← ofForm (f.field "locals") }

instance : ToForm Field := ⟨fun f => .list [toForm f.flags, toForm f.name, toForm f.type]⟩

instance : ToForm Method where
  toForm m := .fields [("flags", toForm m.flags), ("name", toForm m.name),
    ("display", toForm m.displayName), ("descriptor", toForm m.type), ("owner", toForm m.owner),
    ("static", toForm m.isStatic), ("parameter_slots", toForm m.parameterSlots),
    ("has_code", toForm m.code.isSome),
    ("max", toForm (m.code.map fun c => (c.maxStack, c.maxLocals))), ("code", toForm m.body?)]

instance : ToForm ClassModel where
  toForm c := .fields [("name", toForm c.name), ("display", toForm c.displayName),
    ("version", toForm c.file.version), ("fields", toForm c.fields), ("methods", toForm c.methods)]

instance : ToForm RawMember := ⟨fun m =>
  .list [toForm m.flags, toForm m.name, toForm m.descriptor, toForm m.attributes]⟩

/-- Attributes by name. -/
def Form.toAttributes (f : Form) : FormM (List (String × Bytes)) := do
  (← f.items).mapM fun a => return (← a.get 0, ← (a.item 1).toBytes)

instance : OfForm MethodSource where
  ofForm f := do
    let type : MethodType ← ofForm (f.field "descriptor")
    return {
      flags := ← ofForm (f.field "flags")
      name := ← ofForm (f.field "name")
      type
      body := ← ofForm (f.field "code")
      attributes := ← (f.field "attributes").toAttributes }

instance : OfForm FieldSource :=
  ⟨fun f => return ⟨← f.get 0, ← f.get 1, ← f.get 2, ← (f.item 3).toAttributes⟩⟩

/-- The parts of a class are read as they are added, so that the first one with a fault is told. -/
instance : OfForm ClassBuilder where
  ofForm f := do
    let name ← ofForm (f.field "name")
    let c := ClassBuilder.start name (← ofForm (f.field "version"))
    let c ← (← (f.field "methods").items).foldlM (fun c x => do c.addMethod (← ofForm x)) c
    let c ← (← (f.field "fields").items).foldlM (fun c x => do c.addField (← ofForm x)) c
    let c ← (← (f.field "interfaces").items).foldlM (fun c x => do c.addInterface (← ofForm x)) c
    let attributes ← (f.field "attributes").toAttributes
    attributes.foldlM (fun c (name, info) => c.addAttribute name info) c

end ClassGraft
