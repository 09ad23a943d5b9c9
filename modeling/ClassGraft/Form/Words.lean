import ClassGraft.Form.Basic

namespace ClassGraft

instance : Worded BaseType := ⟨[("Byte", .byte), ("Char", .char), ("Double", .double),
  ("Float", .float), ("Int", .int), ("Long", .long), ("Short", .short), ("Boolean", .boolean)]⟩

instance : Worded HandleKind := ⟨[("GetField", .getField), ("GetStatic", .getStatic),
  ("PutField", .putField), ("PutStatic", .putStatic), ("InvokeVirtual", .invokeVirtual),
  ("InvokeStatic", .invokeStatic), ("InvokeSpecial", .invokeSpecial),
  ("NewInvokeSpecial", .newInvokeSpecial), ("InvokeInterface", .invokeInterface)]⟩

instance : Worded InvokeKind := ⟨[("Virtual", .virtual), ("Special", .special),
  ("Static", .static), ("Interface", .interface)]⟩

instance : Worded FieldAccess :=
  ⟨[FieldAccess.getStatic, .putStatic, .getField, .putField].map fun a => (a.mnemonic, a)⟩

instance : Worded ShiftOp := ⟨[("Left", .left), ("LogicalRight", .logicalRight),
  ("ArithmeticRight", .arithmeticRight)]⟩

instance : Worded NaNMode := ⟨[("L", .less), ("G", .greater)]⟩

instance : Worded Comparison := ⟨[("EQ", .eq), ("GE", .ge), ("GT", .gt), ("LE", .le),
  ("LT", .lt), ("NE", .ne)]⟩

instance : Worded Equality := ⟨[("EQ", .eq), ("NE", .ne)]⟩

instance : Worded OpcodeCategory := ⟨[("Nop", .nop), ("Constant", .constant), ("Load", .load),
  ("Store", .store), ("ArrayLoad", .arrayLoad), ("ArrayStore", .arrayStore), ("Stack", .stack),
  ("Arithmetic", .arithmetic), ("Increment", .increment), ("Conversion", .conversion),
  ("Comparison", .comparison), ("FieldAccess", .fieldAccess), ("Invoke", .invoke),
  ("InvokeDynamic", .invokeDynamic), ("Allocation", .allocation), ("TypeCheck", .typeCheck),
  ("Monitor", .monitor), ("Branch", .branch), ("Switch", .switch), ("Subroutine", .subroutine),
  ("Return", .return), ("Throw", .throw), ("Label", .label), ("LineNumber", .lineNumber),
  ("Frame", .frame)]⟩

instance : Worded AttributeKind := ⟨[AttributeKind.code, .stackMapTable, .lineNumberTable,
  .localVariableTable, .localVariableTypeTable].map fun k => (k.name, k)⟩

instance : Worded FlagOwner := ⟨[("class", .ofClass), ("method", .ofMethod), ("field", .ofField)]⟩

instance : Worded Environment := ⟨[("Deobfuscated", .deobfuscated), ("Obfuscated", .obfuscated)]⟩

instance : Worded MemberKind := ⟨[("Method", .method), ("Field", .field)]⟩

instance : Worded SymbolKind :=
  ⟨[("Class", .ofClass), ("Method", .ofMember .method), ("Field", .ofMember .field)]⟩

end ClassGraft
