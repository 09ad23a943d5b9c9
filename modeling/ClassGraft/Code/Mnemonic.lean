import ClassGraft.Code.Node

namespace ClassGraft

def ValueKind.letter : ValueKind → String
  | .int => "I"
  | .long => "L"
  | .float => "F"
  | .double => "D"
  | .ref => "A"

def NumberKind.letter : NumberKind → String
  | .int => "I"
  | .long => "L"
  | .float => "F"
  | .double => "D"

def ElementKind.letter : ElementKind → String
  | .int => "I"
  | .long => "L"
  | .float => "F"
  | .double => "D"
  | .ref => "A"
  | .byte => "B"
  | .char => "C"
  | .short => "S"

def StackOp.mnemonic : StackOp → String
  | .pop => "Pop"
  | .pop2 => "Pop2"
  | .dup => "Dup"
  | .dupX1 => "DupX1"
  | .dupX2 => "DupX2"
  | .dup2 => "Dup2"
  | .dup2X1 => "Dup2X1"
  | .dup2X2 => "Dup2X2"
  | .swap => "Swap"

def ArithmeticOp.mnemonic : ArithmeticOp → String
  | .add => "Add"
  | .sub => "Sub"
  | .mul => "Mul"
  | .div => "Div"
  | .rem => "Rem"
  | .neg => "Neg"

def BitOp.mnemonic : BitOp → String
  | .and => "And"
  | .or => "Or"
  | .xor => "Xor"

def Conversion.mnemonic : Conversion → String
  | .i2l => "I2L"
  | .i2f => "I2F"
  | .i2d => "I2D"
  | .l2i => "L2I"
  | .l2f => "L2F"
  | .l2d => "L2D"
  | .f2i => "F2I"
  | .f2l => "F2L"
  | .f2d => "F2D"
  | .d2i => "D2I"
  | .d2l => "D2L"
  | .d2f => "D2F"
  | .i2b => "I2B"
  | .i2c => "I2C"
  | .i2s => "I2S"

def FieldAccess.mnemonic : FieldAccess → String
  | .getStatic => "GetStatic"
  | .putStatic => "PutStatic"
  | .getField => "GetField"
  | .putField => "PutField"

def intOrLong (long : Bool) : String := if long then "L" else "I"

namespace Instruction

def mnemonic : Instruction → String
  | .nop => "Nop"
  | .constNull => "AConstNull"
  | .constInt 0 => "IConstM1"
  | .constInt n => "IConst" ++ toString (n.val - 1)
  | .constLong n => "LConst" ++ toString n.val
  | .constFloat n => "FConst" ++ toString n.val
  | .constDouble n => "DConst" ++ toString n.val
  | .bipush _ => "BiPush"
  | .sipush _ => "SiPush"
  | .ldc _ => "Ldc"
  | .load k _ => k.letter ++ "Load"
  | .store k _ => k.letter ++ "Store"
  | .arrayLoad k => k.letter ++ "ALoad"
  | .arrayStore k => k.letter ++ "AStore"
  | .stack op => op.mnemonic
  | .arithmetic op k => k.letter ++ op.mnemonic
  | .shift _ long => intOrLong long ++ "Sh"
  | .bitwise op long => intOrLong long ++ op.mnemonic
  | .increment _ _ => "IInc"
  | .convert c => c.mnemonic
  | .compareLong => "LCmp"
  | .compareFloat _ => "FCmp"
  | .compareDouble _ => "DCmp"
  | .field a _ => a.mnemonic
  | .invoke _ _ => "Invoke"
  | .invokeDynamic _ => "InvokeDynamic"
  | .new _ => "New"
  | .newArray _ => "NewArray"
  | .newRefArray _ => "ANewArray"
  | .arrayLength => "ArrayLength"
  | .checkCast _ => "CheckCast"
  | .instanceOf _ => "InstanceOf"
  | .monitorEnter => "MonitorEnter"
  | .monitorExit => "MonitorExit"
  | .newMultiArray _ _ => "MultiANewArray"

end Instruction

def Branch.mnemonic {L : Type} : Branch L → String
  | .ifZero _ _ => "If"
  | .ifInt _ _ => "IfICmp"
  | .ifRef _ _ => "IfACmp"
  | .ifNull _ _ => "IfNull"
  | .goto _ => "Goto"
  | .gotoWide _ => "GotoW"
  | .jsr _ => "Jsr"
  | .jsrWide _ => "JsrW"
  | .ret _ => "Ret"
  | .tableSwitch _ _ _ => "TableSwitch"
  | .lookupSwitch _ _ => "LookupSwitch"
  | .leave none => "Return"
  | .leave (some k) => k.letter ++ "Return"
  | .athrow => "AThrow"

def Node.mnemonic : Node → String
  | .insn i => i.mnemonic
  | .branch b => b.mnemonic
  | .label _ => "Label"
  | .line _ => "LineNumber"
  | .frame _ => "Frame"

end ClassGraft
