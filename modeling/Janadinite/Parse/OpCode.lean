import Janadinite.Lib.Overflow
import Janadinite.Parse.Io

namespace Janadinite
open Codec
set_option autoImplicit true

inductive OpCode where
  | lconst0
  | lconst1
  | fconst0
  | fconst1
  | fconst2
  | dconst0
  | dconst1
  | ldc (idx : UInt8)
  | ldcW (idx : UInt16)
  | ldc2W (refIdx : UInt16)
  | iload (idx : UInt8)
  | lload (idx : UInt8)
  | fload (idx : UInt8)
  | dload (idx : UInt8)
  | aload (idx : UInt8)
  | iStore (idx : UInt8)
  | lStore (idx : UInt8)
  | fStore (idx : UInt8)
  | dStore (idx : UInt8)
  | aStore (idx : UInt8)
  | iaLoad
  | laLoad
  | laStore
  | iaStore
  | faLoad
  | faStore
  | baLoad
  | baStore
  | caLoad
  | caStore
  | daLoad
  | daStore
  | saLoad
  | saStore
  | aaLoad
  | aaStore
  | bipush (byte : Int8)
  | dup
  | dupX1
  | dupX2
  | dup2
  | dup2X1
  | dup2X2
  | iinc (idx : UInt8) (imm : Int8)
  | imul
  | lmul
  | fmul
  | dmul
  | idiv
  | ldiv
  | fdiv
  | ddiv
  | isub
  | lsub
  | fsub
  | dsub
  | iadd
  | ladd
  | fadd
  | dadd
  | irem
  | lrem
  | frem
  | drem
  | ineg
  | lneg
  | fneg
  | dneg
  | ishl
  | lshl
  | ishr
  | lshr
  | iushr
  | lushr
  | iand
  | land
  | ior
  | lor
  | ixor
  | lxor
  | i2l
  | i2f
  | i2d
  | goto (off : Int16)
  | fcmpg
  | fcmpl
  | dcmpg
  | dcmpl
  | ifIcmpEq (off : Int16)
  | ifIcmpNe (off : Int16)
  | ifIcmpLt (off : Int16)
  | ifIcmpGe (off : Int16)
  | ifIcmpGt (off : Int16)
  | ifIcmpLe (off : Int16)
  | lcmp
  | ifNe (off : Int16)
  | ifEq (off : Int16)
  | iReturn
  | lReturn
  | fReturn
  | dReturn
  | aReturn
  | invokeVirtual (refIdx : UInt16)
  | invokeSpecial (refIdx : UInt16)
  | invokeStatic (refIdx : UInt16)
  | «return»
  | getstatic (refIdx : UInt16)
  | putstatic (refIdx : UInt16)
  | getField (refIdx : UInt16)
  | putField (refIdx : UInt16)
  | new (classRef : UInt16)
  | newArray (atype : UInt8)
  | aNewArray (refIdx : UInt16)
  | arrayLength
  | multiANewArray (refIdx : UInt16) (dim : UInt8)
  | wideIload (idx : UInt16)
  | wideLload (idx : UInt16)
  | wideFload (idx : UInt16)
  | wideDload (idx : UInt16)
  | wideAload (idx : UInt16)
  | wideIStore (idx : UInt16)
  | wideLStore (idx : UInt16)
  | wideFStore (idx : UInt16)
  | wideDStore (idx : UInt16)
  | wideAStore (idx : UInt16)
  | wideIinc (idx : UInt16) (imm : Int16)
  | invalid (op : UInt8)
  deriving DecidableEq, Repr

/-- Where decoding stands: the bytes not read yet, and the pc kept beside them. -/
structure Cursor where
  reader : ClassByteReader
  pc : UInt16
  deriving DecidableEq, Repr

abbrev Decode := StateT Cursor (Except Fault) (Option OpCode)

def Profile.advance (p : Profile) (pc : UInt16) (size : Nat) : Except Fault UInt16 :=
  match p.add 16 pc.toNat size with
  | .ok n => .ok (.ofNat n)
  | .error msg => .error (.panic msg)

/-- The macro `opnd!`: an operand that cannot be read makes the instruction invalid. -/
def opnd (p : Profile) (op : UInt8) (read : Io ClassByteReader α) (size : Nat) (k : α → Decode) :
    Decode := fun c =>
  match read c.reader with
  | .error _ => .ok (some (.invalid op), c)
  | .ok (opr, reader) =>
    match p.advance c.pc size with
    | .error e => .error e
    | .ok pc => k opr ⟨reader, pc⟩

def opndU8 (p : Profile) (op : UInt8) (k : UInt8 → Decode) : Decode :=
  opnd p op readU8 1 k

def opndU16 (p : Profile) (op : UInt8) (k : UInt16 → Decode) : Decode :=
  opnd p op readU16 2 k

/-- The fields of a variant with its constructor. -/
inductive Operands where
  | unit (ctor : OpCode)
  | u8 (ctor : UInt8 → OpCode)
  | u16 (ctor : UInt16 → OpCode)
  | i16 (ctor : Int16 → OpCode)
  | u8I8 (ctor : UInt8 → Int8 → OpCode)
  | u16U8 (ctor : UInt16 → UInt8 → OpCode)
  | u16I16 (ctor : UInt16 → Int16 → OpCode)

def Operands.decode (p : Profile) (op : UInt8) : Operands → Decode
  | .unit ctor => pure (some ctor)
  | .u8 ctor => opndU8 p op fun a => pure (some (ctor a))
  | .u16 ctor => opndU16 p op fun a => pure (some (ctor a))
  | .i16 ctor => opndU16 p op fun a => pure (some (ctor a.toInt16))
  | .u8I8 ctor => opndU8 p op fun a => opndU8 p op fun b => pure (some (ctor a b.toInt8))
  | .u16U8 ctor => opndU16 p op fun a => opndU8 p op fun b => pure (some (ctor a b))
  | .u16I16 ctor => opndU16 p op fun a => opndU16 p op fun b => pure (some (ctor a b.toInt16))

inductive VariantDecodeAttr where
  | none
  | short (base count : UInt8)
  | wide

structure Variant where
  discr : UInt8
  operands : Operands
  attr : VariantDecodeAttr

/-- The variants of `OpCode` that are neither skipped nor the invalid one, in source order. A wide
variant stands with the opcode that follows the prefix. -/
def variants : List Variant := [
  ⟨0x9, .unit .lconst0, .none⟩,
  ⟨0xa, .unit .lconst1, .none⟩,
  ⟨0xb, .unit .fconst0, .none⟩,
  ⟨0xc, .unit .fconst1, .none⟩,
  ⟨0xd, .unit .fconst2, .none⟩,
  ⟨0xe, .unit .dconst0, .none⟩,
  ⟨0xf, .unit .dconst1, .none⟩,
  ⟨0x12, .u8 .ldc, .none⟩,
  ⟨0x13, .u16 .ldcW, .none⟩,
  ⟨0x14, .u16 .ldc2W, .none⟩,
  ⟨0x15, .u8 .iload, .short 0x1a 4⟩,
  ⟨0x16, .u8 .lload, .short 0x1e 4⟩,
  ⟨0x17, .u8 .fload, .short 0x22 4⟩,
  ⟨0x18, .u8 .dload, .short 0x26 4⟩,
  ⟨0x19, .u8 .aload, .short 0x2a 4⟩,
  ⟨0x36, .u8 .iStore, .short 0x3b 4⟩,
  ⟨0x37, .u8 .lStore, .short 0x3f 4⟩,
  ⟨0x38, .u8 .fStore, .short 0x43 4⟩,
  ⟨0x39, .u8 .dStore, .short 0x47 4⟩,
  ⟨0x3a, .u8 .aStore, .short 0x4b 4⟩,
  ⟨0x2e, .unit .iaLoad, .none⟩,
  ⟨0x2f, .unit .laLoad, .none⟩,
  ⟨0x50, .unit .laStore, .none⟩,
  ⟨0x4f, .unit .iaStore, .none⟩,
  ⟨0x30, .unit .faLoad, .none⟩,
  ⟨0x51, .unit .faStore, .none⟩,
  ⟨0x33, .unit .baLoad, .none⟩,
  ⟨0x54, .unit .baStore, .none⟩,
  ⟨0x34, .unit .caLoad, .none⟩,
  ⟨0x55, .unit .caStore, .none⟩,
  ⟨0x31, .unit .daLoad, .none⟩,
  ⟨0x52, .unit .daStore, .none⟩,
  ⟨0x35, .unit .saLoad, .none⟩,
  ⟨0x56, .unit .saStore, .none⟩,
  ⟨0x32, .unit .aaLoad, .none⟩,
  ⟨0x53, .unit .aaStore, .none⟩,
  ⟨0x59, .unit .dup, .none⟩,
  ⟨0x5a, .unit .dupX1, .none⟩,
  ⟨0x5b, .unit .dupX2, .none⟩,
  ⟨0x5c, .unit .dup2, .none⟩,
  ⟨0x5d, .unit .dup2X1, .none⟩,
  ⟨0x5e, .unit .dup2X2, .none⟩,
  ⟨0x84, .u8I8 .iinc, .none⟩,
  ⟨0x68, .unit .imul, .none⟩,
  ⟨0x69, .unit .lmul, .none⟩,
  ⟨0x6a, .unit .fmul, .none⟩,
  ⟨0x6b, .unit .dmul, .none⟩,
  ⟨0x6c, .unit .idiv, .none⟩,
  ⟨0x6d, .unit .ldiv, .none⟩,
  ⟨0x6e, .unit .fdiv, .none⟩,
  ⟨0x6f, .unit .ddiv, .none⟩,
  ⟨0x64, .unit .isub, .none⟩,
  ⟨0x65, .unit .lsub, .none⟩,
  ⟨0x66, .unit .fsub, .none⟩,
  ⟨0x67, .unit .dsub, .none⟩,
  ⟨0x60, .unit .iadd, .none⟩,
  ⟨0x61, .unit .ladd, .none⟩,
  ⟨0x62, .unit .fadd, .none⟩,
  ⟨0x63, .unit .dadd, .none⟩,
  ⟨0x70, .unit .irem, .none⟩,
  ⟨0x71, .unit .lrem, .none⟩,
  ⟨0x72, .unit .frem, .none⟩,
  ⟨0x73, .unit .drem, .none⟩,
  ⟨0x74, .unit .ineg, .none⟩,
  ⟨0x75, .unit .lneg, .none⟩,
  ⟨0x76, .unit .fneg, .none⟩,
  ⟨0x77, .unit .dneg, .none⟩,
  ⟨0x78, .unit .ishl, .none⟩,
  ⟨0x79, .unit .lshl, .none⟩,
  ⟨0x7a, .unit .ishr, .none⟩,
  ⟨0x7b, .unit .lshr, .none⟩,
  ⟨0x7c, .unit .iushr, .none⟩,
  ⟨0x7d, .unit .lushr, .none⟩,
  ⟨0x7e, .unit .iand, .none⟩,
  ⟨0x7f, .unit .land, .none⟩,
  ⟨0x80, .unit .ior, .none⟩,
  ⟨0x81, .unit .lor, .none⟩,
  ⟨0x82, .unit .ixor, .none⟩,
  ⟨0x83, .unit .lxor, .none⟩,
  ⟨0x85, .unit .i2l, .none⟩,
  ⟨0x86, .unit .i2f, .none⟩,
  ⟨0x87, .unit .i2d, .none⟩,
  ⟨0xa7, .i16 .goto, .none⟩,
  ⟨0x96, .unit .fcmpg, .none⟩,
  ⟨0x95, .unit .fcmpl, .none⟩,
  ⟨0x98, .unit .dcmpg, .none⟩,
  ⟨0x97, .unit .dcmpl, .none⟩,
  ⟨0x9f, .i16 .ifIcmpEq, .none⟩,
  ⟨0xa0, .i16 .ifIcmpNe, .none⟩,
  ⟨0xa1, .i16 .ifIcmpLt, .none⟩,
  ⟨0xa2, .i16 .ifIcmpGe, .none⟩,
  ⟨0xa3, .i16 .ifIcmpGt, .none⟩,
  ⟨0xa4, .i16 .ifIcmpLe, .none⟩,
  ⟨0x94, .unit .lcmp, .none⟩,
  ⟨0x9a, .i16 .ifNe, .none⟩,
  ⟨0x99, .i16 .ifEq, .none⟩,
  ⟨0xac, .unit .iReturn, .none⟩,
  ⟨0xad, .unit .lReturn, .none⟩,
  ⟨0xae, .unit .fReturn, .none⟩,
  ⟨0xaf, .unit .dReturn, .none⟩,
  ⟨0xb0, .unit .aReturn, .none⟩,
  ⟨0xb6, .u16 .invokeVirtual, .none⟩,
  ⟨0xb7, .u16 .invokeSpecial, .none⟩,
  ⟨0xb8, .u16 .invokeStatic, .none⟩,
  ⟨0xb1, .unit .«return», .none⟩,
  ⟨0xb2, .u16 .getstatic, .none⟩,
  ⟨0xb3, .u16 .putstatic, .none⟩,
  ⟨0xb4, .u16 .getField, .none⟩,
  ⟨0xb5, .u16 .putField, .none⟩,
  ⟨0xbb, .u16 .new, .none⟩,
  ⟨0xbc, .u8 .newArray, .none⟩,
  ⟨0xbd, .u16 .aNewArray, .none⟩,
  ⟨0xbe, .unit .arrayLength, .none⟩,
  ⟨0xc5, .u16U8 .multiANewArray, .none⟩,
  ⟨0x15, .u16 .wideIload, .wide⟩,
  ⟨0x16, .u16 .wideLload, .wide⟩,
  ⟨0x17, .u16 .wideFload, .wide⟩,
  ⟨0x18, .u16 .wideDload, .wide⟩,
  ⟨0x19, .u16 .wideAload, .wide⟩,
  ⟨0x36, .u16 .wideIStore, .wide⟩,
  ⟨0x37, .u16 .wideLStore, .wide⟩,
  ⟨0x38, .u16 .wideFStore, .wide⟩,
  ⟨0x39, .u16 .wideDStore, .wide⟩,
  ⟨0x3a, .u16 .wideAStore, .wide⟩,
  ⟨0x84, .u16I16 .wideIinc, .wide⟩]

/-- An arm of the generated match: a range of opcodes and what is decoded there. -/
structure Arm where
  first : UInt8
  last : UInt8
  body : Profile → UInt8 → Decode

def Arm.covers (arm : Arm) (op : UInt8) : Bool :=
  arm.first ≤ op && op ≤ arm.last

def Variant.shortBody (base : UInt8) : Operands → Profile → UInt8 → Decode
  | .u8 ctor => fun _ op => pure (some (ctor (op - base)))
  | operands => fun p op => operands.decode p op

def Variant.arm (v : Variant) : Arm :=
  ⟨v.discr, v.discr, fun p op => v.operands.decode p op⟩

def Variant.outerArms (v : Variant) : List Arm :=
  match v.attr with
  | .none => [v.arm]
  | .short base count => [v.arm, ⟨base, base + count - 1, Variant.shortBody base v.operands⟩]
  | .wide => []

def Variant.wideArms (v : Variant) : List Arm :=
  match v.attr with
  | .wide => [v.arm]
  | _ => []

def widePrefix : UInt8 := 0xc4

/-- The arm of the wide prefix; the operands of a wide instruction fail with the prefix as
opcode. -/
def wideArm (variants : List Variant) : Arm :=
  ⟨widePrefix, widePrefix, fun p op => opndU8 p op fun widenedOp =>
    match (variants.flatMap Variant.wideArms).find? (·.covers widenedOp) with
    | some arm => arm.body p op
    | none => pure (some (.invalid op))⟩

/-- The match that the derive macro generates. -/
def expand (variants : List Variant) (fallback : Profile → UInt8 → Decode) (p : Profile)
    (op : UInt8) : Decode :=
  match (variants.flatMap Variant.outerArms ++ [wideArm variants]).find? (·.covers op) with
  | some arm => arm.body p op
  | none => fallback p op

namespace OpCode

def customDecode (p : Profile) (op : UInt8) : Decode := fun c =>
  if op = 0x10 then
    match readU8 c.reader with
    | .error _ => .ok (none, c)
    | .ok (byte, reader) =>
      match p.advance c.pc 1 with
      | .error e => .error e
      | .ok pc => .ok (some (.bipush byte.toInt8), ⟨reader, pc⟩)
  else if op = 0x2 then .ok (some (.bipush (-1)), c)
  else if 0x3 ≤ op ∧ op ≤ 0x8 then .ok (some (.bipush (op - 0x3).toInt8), c)
  else .ok (some (.invalid op), c)

def decode (p : Profile) (op : UInt8) : Decode :=
  expand variants customDecode p op

end OpCode

structure Instructions where
  bytes : List UInt8
  pc : UInt16
  deriving DecidableEq, Repr

def Instructions.setPc (ins : Instructions) (pc : UInt16) : Instructions :=
  { ins with pc }

def Instructions.nextOp (p : Profile) (ins : Instructions) :
    Except Fault (Option OpCode × Instructions) :=
  if ins.pc.toNat ≥ ins.bytes.length then .ok (none, ins)
  else
    match readU8 (ins.bytes.drop ins.pc.toNat) with
    | .error _ => .ok (none, ins)
    | .ok (op, reader) =>
      match p.advance ins.pc 1 with
      | .error e => .error e
      | .ok pc =>
        match OpCode.decode p op ⟨reader, pc⟩ with
        | .error e => .error e
        | .ok (res, c) => .ok (res, ins.setPc c.pc)

theorem nextOp_bytes {ins ins' : Instructions} (h : ins.nextOp p = .ok (op, ins')) :
    ins'.bytes = ins.bytes := by
  unfold Instructions.nextOp at h
  split at h
  · cases h
    rfl
  · split at h
    · cases h
      rfl
    · split at h
      · cases h
      · split at h
        · cases h
        · cases h
          rfl

end Janadinite
