import CilEdit.Code.OperandKind
import CilEdit.Text.Hex

namespace CilEdit

inductive Opcode
  | nop | breakpoint | ldarg0 | ldarg1 | ldarg2 | ldarg3 | ldloc0 | ldloc1 | ldloc2 | ldloc3
  | stloc0 | stloc1 | stloc2 | stloc3 | ldargS | ldargaS | stargS | ldlocS | ldlocaS | stlocS
  | ldnull | ldcI4M1 | ldcI40 | ldcI41 | ldcI42 | ldcI43 | ldcI44 | ldcI45 | ldcI46 | ldcI47
  | ldcI48 | ldcI4S | ldcI4 | ldcI8 | ldcR4 | ldcR8 | dup | pop | jmp | call | calli | ret | brS
  | brfalseS | brtrueS | beqS | bgeS | bgtS | bleS | bltS | bneUnS | bgeUnS | bgtUnS | bleUnS
  | bltUnS | br | brfalse | brtrue | beq | bge | bgt | ble | blt | bneUn | bgeUn | bgtUn | bleUn
  | bltUn | switch | ldindI1 | ldindU1 | ldindI2 | ldindU2 | ldindI4 | ldindU4 | ldindI8 | ldindI
  | ldindR4 | ldindR8 | ldindRef | stindRef | stindI1 | stindI2 | stindI4 | stindI8 | stindR4
  | stindR8 | add | sub | mul | div | divUn | rem | remUn | and | or | xor | shl | shr | shrUn
  | neg | not | convI1 | convI2 | convI4 | convI8 | convR4 | convR8 | convU4 | convU8 | callvirt
  | cpobj | ldobj | ldstr | newobj | castclass | isinst | convRUn | unbox | throw | ldfld
  | ldflda | stfld | ldsfld | ldsflda | stsfld | stobj | convOvfI1Un | convOvfI2Un | convOvfI4Un
  | convOvfI8Un | convOvfU1Un | convOvfU2Un | convOvfU4Un | convOvfU8Un | convOvfIUn | convOvfUUn
  | box | newarr | ldlen | ldelema | ldelemI1 | ldelemU1 | ldelemI2 | ldelemU2 | ldelemI4
  | ldelemU4 | ldelemI8 | ldelemI | ldelemR4 | ldelemR8 | ldelemRef | stelemI | stelemI1
  | stelemI2 | stelemI4 | stelemI8 | stelemR4 | stelemR8 | stelemRef | ldelem | stelem | unboxAny
  | convOvfI1 | convOvfU1 | convOvfI2 | convOvfU2 | convOvfI4 | convOvfU4 | convOvfI8 | convOvfU8
  | refanyval | ckfinite | mkrefany | ldtoken | convU2 | convU1 | convI | convOvfI | convOvfU
  | addOvf | addOvfUn | mulOvf | mulOvfUn | subOvf | subOvfUn | endfinally | leave | leaveS
  | stindI | convU | arglist | ceq | cgt | cgtUn | clt | cltUn | ldftn | ldvirtftn | ldarg
  | ldarga | starg | ldloc | ldloca | stloc | localloc | endfilter | unaligned | volatile | tail
  | initobj | constrained | cpblk | initblk | no | rethrow | sizeof | refanytype | readonly
  deriving DecidableEq, Repr, Inhabited

namespace Opcode

structure Info where
  value : UInt16
  mnemonic : String
  operand : OperandKind
  flow : Flow
  pops : StackCount
  pushes : StackCount

def info : Opcode → Info
  | .nop => ⟨0x00, "nop", .none, .sequential, .fixed 0, .fixed 0⟩
  | .breakpoint => ⟨0x01, "break", .none, .sequential, .fixed 0, .fixed 0⟩
  | .ldarg0 => ⟨0x02, "ldarg.0", .none, .sequential, .fixed 0, .fixed 1⟩
  | .ldarg1 => ⟨0x03, "ldarg.1", .none, .sequential, .fixed 0, .fixed 1⟩
  | .ldarg2 => ⟨0x04, "ldarg.2", .none, .sequential, .fixed 0, .fixed 1⟩
  | .ldarg3 => ⟨0x05, "ldarg.3", .none, .sequential, .fixed 0, .fixed 1⟩
  | .ldloc0 => ⟨0x06, "ldloc.0", .none, .sequential, .fixed 0, .fixed 1⟩
  | .ldloc1 => ⟨0x07, "ldloc.1", .none, .sequential, .fixed 0, .fixed 1⟩
  | .ldloc2 => ⟨0x08, "ldloc.2", .none, .sequential, .fixed 0, .fixed 1⟩
  | .ldloc3 => ⟨0x09, "ldloc.3", .none, .sequential, .fixed 0, .fixed 1⟩
  | .stloc0 => ⟨0x0A, "stloc.0", .none, .sequential, .fixed 1, .fixed 0⟩
  | .stloc1 => ⟨0x0B, "stloc.1", .none, .sequential, .fixed 1, .fixed 0⟩
  | .stloc2 => ⟨0x0C, "stloc.2", .none, .sequential, .fixed 1, .fixed 0⟩
  | .stloc3 => ⟨0x0D, "stloc.3", .none, .sequential, .fixed 1, .fixed 0⟩
  | .ldargS => ⟨0x0E, "ldarg.s", .uint8, .sequential, .fixed 0, .fixed 1⟩
  | .ldargaS => ⟨0x0F, "ldarga.s", .uint8, .sequential, .fixed 0, .fixed 1⟩
  | .stargS => ⟨0x10, "starg.s", .uint8, .sequential, .fixed 1, .fixed 0⟩
  | .ldlocS => ⟨0x11, "ldloc.s", .uint8, .sequential, .fixed 0, .fixed 1⟩
  | .ldlocaS => ⟨0x12, "ldloca.s", .uint8, .sequential, .fixed 0, .fixed 1⟩
  | .stlocS => ⟨0x13, "stloc.s", .uint8, .sequential, .fixed 1, .fixed 0⟩
  | .ldnull => ⟨0x14, "ldnull", .none, .sequential, .fixed 0, .fixed 1⟩
  | .ldcI4M1 => ⟨0x15, "ldc.i4.m1", .none, .sequential, .fixed 0, .fixed 1⟩
  | .ldcI40 => ⟨0x16, "ldc.i4.0", .none, .sequential, .fixed 0, .fixed 1⟩
  | .ldcI41 => ⟨0x17, "ldc.i4.1", .none, .sequential, .fixed 0, .fixed 1⟩
  | .ldcI42 => ⟨0x18, "ldc.i4.2", .none, .sequential, .fixed 0, .fixed 1⟩
  | .ldcI43 => ⟨0x19, "ldc.i4.3", .none, .sequential, .fixed 0, .fixed 1⟩
  | .ldcI44 => ⟨0x1A, "ldc.i4.4", .none, .sequential, .fixed 0, .fixed 1⟩
  | .ldcI45 => ⟨0x1B, "ldc.i4.5", .none, .sequential, .fixed 0, .fixed 1⟩
  | .ldcI46 => ⟨0x1C, "ldc.i4.6", .none, .sequential, .fixed 0, .fixed 1⟩
  | .ldcI47 => ⟨0x1D, "ldc.i4.7", .none, .sequential, .fixed 0, .fixed 1⟩
  | .ldcI48 => ⟨0x1E, "ldc.i4.8", .none, .sequential, .fixed 0, .fixed 1⟩
  | .ldcI4S => ⟨0x1F, "ldc.i4.s", .int8, .sequential, .fixed 0, .fixed 1⟩
  | .ldcI4 => ⟨0x20, "ldc.i4", .int32, .sequential, .fixed 0, .fixed 1⟩
  | .ldcI8 => ⟨0x21, "ldc.i8", .int64, .sequential, .fixed 0, .fixed 1⟩
  | .ldcR4 => ⟨0x22, "ldc.r4", .float32, .sequential, .fixed 0, .fixed 1⟩
  | .ldcR8 => ⟨0x23, "ldc.r8", .float64, .sequential, .fixed 0, .fixed 1⟩
  | .dup => ⟨0x25, "dup", .none, .sequential, .fixed 1, .fixed 2⟩
  | .pop => ⟨0x26, "pop", .none, .sequential, .fixed 1, .fixed 0⟩
  | .jmp => ⟨0x27, "jmp", .token, .ret, .fixed 0, .fixed 0⟩
  | .call => ⟨0x28, "call", .token, .call, .variable, .variable⟩
  | .calli => ⟨0x29, "calli", .token, .call, .variable, .variable⟩
  | .ret => ⟨0x2A, "ret", .none, .ret, .variable, .fixed 0⟩
  | .brS => ⟨0x2B, "br.s", .shortTarget, .unconditionalBranch, .fixed 0, .fixed 0⟩
  | .brfalseS => ⟨0x2C, "brfalse.s", .shortTarget, .conditionalBranch, .fixed 1, .fixed 0⟩
  | .brtrueS => ⟨0x2D, "brtrue.s", .shortTarget, .conditionalBranch, .fixed 1, .fixed 0⟩
  | .beqS => ⟨0x2E, "beq.s", .shortTarget, .conditionalBranch, .fixed 2, .fixed 0⟩
  | .bgeS => ⟨0x2F, "bge.s", .shortTarget, .conditionalBranch, .fixed 2, .fixed 0⟩
  | .bgtS => ⟨0x30, "bgt.s", .shortTarget, .conditionalBranch, .fixed 2, .fixed 0⟩
  | .bleS => ⟨0x31, "ble.s", .shortTarget, .conditionalBranch, .fixed 2, .fixed 0⟩
  | .bltS => ⟨0x32, "blt.s", .shortTarget, .conditionalBranch, .fixed 2, .fixed 0⟩
  | .bneUnS => ⟨0x33, "bne.un.s", .shortTarget, .conditionalBranch, .fixed 2, .fixed 0⟩
  | .bgeUnS => ⟨0x34, "bge.un.s", .shortTarget, .conditionalBranch, .fixed 2, .fixed 0⟩
  | .bgtUnS => ⟨0x35, "bgt.un.s", .shortTarget, .conditionalBranch, .fixed 2, .fixed 0⟩
  | .bleUnS => ⟨0x36, "ble.un.s", .shortTarget, .conditionalBranch, .fixed 2, .fixed 0⟩
  | .bltUnS => ⟨0x37, "blt.un.s", .shortTarget, .conditionalBranch, .fixed 2, .fixed 0⟩
  | .br => ⟨0x38, "br", .target, .unconditionalBranch, .fixed 0, .fixed 0⟩
  | .brfalse => ⟨0x39, "brfalse", .target, .conditionalBranch, .fixed 1, .fixed 0⟩
  | .brtrue => ⟨0x3A, "brtrue", .target, .conditionalBranch, .fixed 1, .fixed 0⟩
  | .beq => ⟨0x3B, "beq", .target, .conditionalBranch, .fixed 2, .fixed 0⟩
  | .bge => ⟨0x3C, "bge", .target, .conditionalBranch, .fixed 2, .fixed 0⟩
  | .bgt => ⟨0x3D, "bgt", .target, .conditionalBranch, .fixed 2, .fixed 0⟩
  | .ble => ⟨0x3E, "ble", .target, .conditionalBranch, .fixed 2, .fixed 0⟩
  | .blt => ⟨0x3F, "blt", .target, .conditionalBranch, .fixed 2, .fixed 0⟩
  | .bneUn => ⟨0x40, "bne.un", .target, .conditionalBranch, .fixed 2, .fixed 0⟩
  | .bgeUn => ⟨0x41, "bge.un", .target, .conditionalBranch, .fixed 2, .fixed 0⟩
  | .bgtUn => ⟨0x42, "bgt.un", .target, .conditionalBranch, .fixed 2, .fixed 0⟩
  | .bleUn => ⟨0x43, "ble.un", .target, .conditionalBranch, .fixed 2, .fixed 0⟩
  | .bltUn => ⟨0x44, "blt.un", .target, .conditionalBranch, .fixed 2, .fixed 0⟩
  | .switch => ⟨0x45, "switch", .switch, .switch, .fixed 1, .fixed 0⟩
  | .ldindI1 => ⟨0x46, "ldind.i1", .none, .sequential, .fixed 1, .fixed 1⟩
  | .ldindU1 => ⟨0x47, "ldind.u1", .none, .sequential, .fixed 1, .fixed 1⟩
  | .ldindI2 => ⟨0x48, "ldind.i2", .none, .sequential, .fixed 1, .fixed 1⟩
  | .ldindU2 => ⟨0x49, "ldind.u2", .none, .sequential, .fixed 1, .fixed 1⟩
  | .ldindI4 => ⟨0x4A, "ldind.i4", .none, .sequential, .fixed 1, .fixed 1⟩
  | .ldindU4 => ⟨0x4B, "ldind.u4", .none, .sequential, .fixed 1, .fixed 1⟩
  | .ldindI8 => ⟨0x4C, "ldind.i8", .none, .sequential, .fixed 1, .fixed 1⟩
  | .ldindI => ⟨0x4D, "ldind.i", .none, .sequential, .fixed 1, .fixed 1⟩
  | .ldindR4 => ⟨0x4E, "ldind.r4", .none, .sequential, .fixed 1, .fixed 1⟩
  | .ldindR8 => ⟨0x4F, "ldind.r8", .none, .sequential, .fixed 1, .fixed 1⟩
  | .ldindRef => ⟨0x50, "ldind.ref", .none, .sequential, .fixed 1, .fixed 1⟩
  | .stindRef => ⟨0x51, "stind.ref", .none, .sequential, .fixed 2, .fixed 0⟩
  | .stindI1 => ⟨0x52, "stind.i1", .none, .sequential, .fixed 2, .fixed 0⟩
  | .stindI2 => ⟨0x53, "stind.i2", .none, .sequential, .fixed 2, .fixed 0⟩
  | .stindI4 => ⟨0x54, "stind.i4", .none, .sequential, .fixed 2, .fixed 0⟩
  | .stindI8 => ⟨0x55, "stind.i8", .none, .sequential, .fixed 2, .fixed 0⟩
  | .stindR4 => ⟨0x56, "stind.r4", .none, .sequential, .fixed 2, .fixed 0⟩
  | .stindR8 => ⟨0x57, "stind.r8", .none, .sequential, .fixed 2, .fixed 0⟩
  | .add => ⟨0x58, "add", .none, .sequential, .fixed 2, .fixed 1⟩
  | .sub => ⟨0x59, "sub", .none, .sequential, .fixed 2, .fixed 1⟩
  | .mul => ⟨0x5A, "mul", .none, .sequential, .fixed 2, .fixed 1⟩
  | .div => ⟨0x5B, "div", .none, .sequential, .fixed 2, .fixed 1⟩
  | .divUn => ⟨0x5C, "div.un", .none, .sequential, .fixed 2, .fixed 1⟩
  | .rem => ⟨0x5D, "rem", .none, .sequential, .fixed 2, .fixed 1⟩
  | .remUn => ⟨0x5E, "rem.un", .none, .sequential, .fixed 2, .fixed 1⟩
  | .and => ⟨0x5F, "and", .none, .sequential, .fixed 2, .fixed 1⟩
  | .or => ⟨0x60, "or", .none, .sequential, .fixed 2, .fixed 1⟩
  | .xor => ⟨0x61, "xor", .none, .sequential, .fixed 2, .fixed 1⟩
  | .shl => ⟨0x62, "shl", .none, .sequential, .fixed 2, .fixed 1⟩
  | .shr => ⟨0x63, "shr", .none, .sequential, .fixed 2, .fixed 1⟩
  | .shrUn => ⟨0x64, "shr.un", .none, .sequential, .fixed 2, .fixed 1⟩
  | .neg => ⟨0x65, "neg", .none, .sequential, .fixed 1, .fixed 1⟩
  | .not => ⟨0x66, "not", .none, .sequential, .fixed 1, .fixed 1⟩
  | .convI1 => ⟨0x67, "conv.i1", .none, .sequential, .fixed 1, .fixed 1⟩
  | .convI2 => ⟨0x68, "conv.i2", .none, .sequential, .fixed 1, .fixed 1⟩
  | .convI4 => ⟨0x69, "conv.i4", .none, .sequential, .fixed 1, .fixed 1⟩
  | .convI8 => ⟨0x6A, "conv.i8", .none, .sequential, .fixed 1, .fixed 1⟩
  | .convR4 => ⟨0x6B, "conv.r4", .none, .sequential, .fixed 1, .fixed 1⟩
  | .convR8 => ⟨0x6C, "conv.r8", .none, .sequential, .fixed 1, .fixed 1⟩
  | .convU4 => ⟨0x6D, "conv.u4", .none, .sequential, .fixed 1, .fixed 1⟩
  | .convU8 => ⟨0x6E, "conv.u8", .none, .sequential, .fixed 1, .fixed 1⟩
  | .callvirt => ⟨0x6F, "callvirt", .token, .call, .variable, .variable⟩
  | .cpobj => ⟨0x70, "cpobj", .token, .sequential, .fixed 2, .fixed 0⟩
  | .ldobj => ⟨0x71, "ldobj", .token, .sequential, .fixed 1, .fixed 1⟩
  | .ldstr => ⟨0x72, "ldstr", .token, .sequential, .fixed 0, .fixed 1⟩
  | .newobj => ⟨0x73, "newobj", .token, .call, .variable, .fixed 1⟩
  | .castclass => ⟨0x74, "castclass", .token, .sequential, .fixed 1, .fixed 1⟩
  | .isinst => ⟨0x75, "isinst", .token, .sequential, .fixed 1, .fixed 1⟩
  | .convRUn => ⟨0x76, "conv.r.un", .none, .sequential, .fixed 1, .fixed 1⟩
  | .unbox => ⟨0x79, "unbox", .token, .sequential, .fixed 1, .fixed 1⟩
  | .throw => ⟨0x7A, "throw", .none, .raise, .fixed 1, .fixed 0⟩
  | .ldfld => ⟨0x7B, "ldfld", .token, .sequential, .fixed 1, .fixed 1⟩
  | .ldflda => ⟨0x7C, "ldflda", .token, .sequential, .fixed 1, .fixed 1⟩
  | .stfld => ⟨0x7D, "stfld", .token, .sequential, .fixed 2, .fixed 0⟩
  | .ldsfld => ⟨0x7E, "ldsfld", .token, .sequential, .fixed 0, .fixed 1⟩
  | .ldsflda => ⟨0x7F, "ldsflda", .token, .sequential, .fixed 0, .fixed 1⟩
  | .stsfld => ⟨0x80, "stsfld", .token, .sequential, .fixed 1, .fixed 0⟩
  | .stobj => ⟨0x81, "stobj", .token, .sequential, .fixed 2, .fixed 0⟩
  | .convOvfI1Un => ⟨0x82, "conv.ovf.i1.un", .none, .sequential, .fixed 1, .fixed 1⟩
  | .convOvfI2Un => ⟨0x83, "conv.ovf.i2.un", .none, .sequential, .fixed 1, .fixed 1⟩
  | .convOvfI4Un => ⟨0x84, "conv.ovf.i4.un", .none, .sequential, .fixed 1, .fixed 1⟩
  | .convOvfI8Un => ⟨0x85, "conv.ovf.i8.un", .none, .sequential, .fixed 1, .fixed 1⟩
  | .convOvfU1Un => ⟨0x86, "conv.ovf.u1.un", .none, .sequential, .fixed 1, .fixed 1⟩
  | .convOvfU2Un => ⟨0x87, "conv.ovf.u2.un", .none, .sequential, .fixed 1, .fixed 1⟩
  | .convOvfU4Un => ⟨0x88, "conv.ovf.u4.un", .none, .sequential, .fixed 1, .fixed 1⟩
  | .convOvfU8Un => ⟨0x89, "conv.ovf.u8.un", .none, .sequential, .fixed 1, .fixed 1⟩
  | .convOvfIUn => ⟨0x8A, "conv.ovf.i.un", .none, .sequential, .fixed 1, .fixed 1⟩
  | .convOvfUUn => ⟨0x8B, "conv.ovf.u.un", .none, .sequential, .fixed 1, .fixed 1⟩
  | .box => ⟨0x8C, "box", .token, .sequential, .fixed 1, .fixed 1⟩
  | .newarr => ⟨0x8D, "newarr", .token, .sequential, .fixed 1, .fixed 1⟩
  | .ldlen => ⟨0x8E, "ldlen", .none, .sequential, .fixed 1, .fixed 1⟩
  | .ldelema => ⟨0x8F, "ldelema", .token, .sequential, .fixed 2, .fixed 1⟩
  | .ldelemI1 => ⟨0x90, "ldelem.i1", .none, .sequential, .fixed 2, .fixed 1⟩
  | .ldelemU1 => ⟨0x91, "ldelem.u1", .none, .sequential, .fixed 2, .fixed 1⟩
  | .ldelemI2 => ⟨0x92, "ldelem.i2", .none, .sequential, .fixed 2, .fixed 1⟩
  | .ldelemU2 => ⟨0x93, "ldelem.u2", .none, .sequential, .fixed 2, .fixed 1⟩
  | .ldelemI4 => ⟨0x94, "ldelem.i4", .none, .sequential, .fixed 2, .fixed 1⟩
  | .ldelemU4 => ⟨0x95, "ldelem.u4", .none, .sequential, .fixed 2, .fixed 1⟩
  | .ldelemI8 => ⟨0x96, "ldelem.i8", .none, .sequential, .fixed 2, .fixed 1⟩
  | .ldelemI => ⟨0x97, "ldelem.i", .none, .sequential, .fixed 2, .fixed 1⟩
  | .ldelemR4 => ⟨0x98, "ldelem.r4", .none, .sequential, .fixed 2, .fixed 1⟩
  | .ldelemR8 => ⟨0x99, "ldelem.r8", .none, .sequential, .fixed 2, .fixed 1⟩
  | .ldelemRef => ⟨0x9A, "ldelem.ref", .none, .sequential, .fixed 2, .fixed 1⟩
  | .stelemI => ⟨0x9B, "stelem.i", .none, .sequential, .fixed 3, .fixed 0⟩
  | .stelemI1 => ⟨0x9C, "stelem.i1", .none, .sequential, .fixed 3, .fixed 0⟩
  | .stelemI2 => ⟨0x9D, "stelem.i2", .none, .sequential, .fixed 3, .fixed 0⟩
  | .stelemI4 => ⟨0x9E, "stelem.i4", .none, .sequential, .fixed 3, .fixed 0⟩
  | .stelemI8 => ⟨0x9F, "stelem.i8", .none, .sequential, .fixed 3, .fixed 0⟩
  | .stelemR4 => ⟨0xA0, "stelem.r4", .none, .sequential, .fixed 3, .fixed 0⟩
  | .stelemR8 => ⟨0xA1, "stelem.r8", .none, .sequential, .fixed 3, .fixed 0⟩
  | .stelemRef => ⟨0xA2, "stelem.ref", .none, .sequential, .fixed 3, .fixed 0⟩
  | .ldelem => ⟨0xA3, "ldelem", .token, .sequential, .fixed 2, .fixed 1⟩
  | .stelem => ⟨0xA4, "stelem", .token, .sequential, .fixed 3, .fixed 0⟩
  | .unboxAny => ⟨0xA5, "unbox.any", .token, .sequential, .fixed 1, .fixed 1⟩
  | .convOvfI1 => ⟨0xB3, "conv.ovf.i1", .none, .sequential, .fixed 1, .fixed 1⟩
  | .convOvfU1 => ⟨0xB4, "conv.ovf.u1", .none, .sequential, .fixed 1, .fixed 1⟩
  | .convOvfI2 => ⟨0xB5, "conv.ovf.i2", .none, .sequential, .fixed 1, .fixed 1⟩
  | .convOvfU2 => ⟨0xB6, "conv.ovf.u2", .none, .sequential, .fixed 1, .fixed 1⟩
  | .convOvfI4 => ⟨0xB7, "conv.ovf.i4", .none, .sequential, .fixed 1, .fixed 1⟩
  | .convOvfU4 => ⟨0xB8, "conv.ovf.u4", .none, .sequential, .fixed 1, .fixed 1⟩
  | .convOvfI8 => ⟨0xB9, "conv.ovf.i8", .none, .sequential, .fixed 1, .fixed 1⟩
  | .convOvfU8 => ⟨0xBA, "conv.ovf.u8", .none, .sequential, .fixed 1, .fixed 1⟩
  | .refanyval => ⟨0xC2, "refanyval", .token, .sequential, .fixed 1, .fixed 1⟩
  | .ckfinite => ⟨0xC3, "ckfinite", .none, .sequential, .fixed 1, .fixed 1⟩
  | .mkrefany => ⟨0xC6, "mkrefany", .token, .sequential, .fixed 1, .fixed 1⟩
  | .ldtoken => ⟨0xD0, "ldtoken", .token, .sequential, .fixed 0, .fixed 1⟩
  | .convU2 => ⟨0xD1, "conv.u2", .none, .sequential, .fixed 1, .fixed 1⟩
  | .convU1 => ⟨0xD2, "conv.u1", .none, .sequential, .fixed 1, .fixed 1⟩
  | .convI => ⟨0xD3, "conv.i", .none, .sequential, .fixed 1, .fixed 1⟩
  | .convOvfI => ⟨0xD4, "conv.ovf.i", .none, .sequential, .fixed 1, .fixed 1⟩
  | .convOvfU => ⟨0xD5, "conv.ovf.u", .none, .sequential, .fixed 1, .fixed 1⟩
  | .addOvf => ⟨0xD6, "add.ovf", .none, .sequential, .fixed 2, .fixed 1⟩
  | .addOvfUn => ⟨0xD7, "add.ovf.un", .none, .sequential, .fixed 2, .fixed 1⟩
  | .mulOvf => ⟨0xD8, "mul.ovf", .none, .sequential, .fixed 2, .fixed 1⟩
  | .mulOvfUn => ⟨0xD9, "mul.ovf.un", .none, .sequential, .fixed 2, .fixed 1⟩
  | .subOvf => ⟨0xDA, "sub.ovf", .none, .sequential, .fixed 2, .fixed 1⟩
  | .subOvfUn => ⟨0xDB, "sub.ovf.un", .none, .sequential, .fixed 2, .fixed 1⟩
  | .endfinally => ⟨0xDC, "endfinally", .none, .endFinally, .fixed 0, .fixed 0⟩
  | .leave => ⟨0xDD, "leave", .target, .leave, .fixed 0, .fixed 0⟩
  | .leaveS => ⟨0xDE, "leave.s", .shortTarget, .leave, .fixed 0, .fixed 0⟩
  | .stindI => ⟨0xDF, "stind.i", .none, .sequential, .fixed 2, .fixed 0⟩
  | .convU => ⟨0xE0, "conv.u", .none, .sequential, .fixed 1, .fixed 1⟩
  | .arglist => ⟨0xFE00, "arglist", .none, .sequential, .fixed 0, .fixed 1⟩
  | .ceq => ⟨0xFE01, "ceq", .none, .sequential, .fixed 2, .fixed 1⟩
  | .cgt => ⟨0xFE02, "cgt", .none, .sequential, .fixed 2, .fixed 1⟩
  | .cgtUn => ⟨0xFE03, "cgt.un", .none, .sequential, .fixed 2, .fixed 1⟩
  | .clt => ⟨0xFE04, "clt", .none, .sequential, .fixed 2, .fixed 1⟩
  | .cltUn => ⟨0xFE05, "clt.un", .none, .sequential, .fixed 2, .fixed 1⟩
  | .ldftn => ⟨0xFE06, "ldftn", .token, .sequential, .fixed 0, .fixed 1⟩
  | .ldvirtftn => ⟨0xFE07, "ldvirtftn", .token, .sequential, .fixed 1, .fixed 1⟩
  | .ldarg => ⟨0xFE09, "ldarg", .uint16, .sequential, .fixed 0, .fixed 1⟩
  | .ldarga => ⟨0xFE0A, "ldarga", .uint16, .sequential, .fixed 0, .fixed 1⟩
  | .starg => ⟨0xFE0B, "starg", .uint16, .sequential, .fixed 1, .fixed 0⟩
  | .ldloc => ⟨0xFE0C, "ldloc", .uint16, .sequential, .fixed 0, .fixed 1⟩
  | .ldloca => ⟨0xFE0D, "ldloca", .uint16, .sequential, .fixed 0, .fixed 1⟩
  | .stloc => ⟨0xFE0E, "stloc", .uint16, .sequential, .fixed 1, .fixed 0⟩
  | .localloc => ⟨0xFE0F, "localloc", .none, .sequential, .fixed 1, .fixed 1⟩
  | .endfilter => ⟨0xFE11, "endfilter", .none, .endFinally, .fixed 1, .fixed 0⟩
  | .unaligned => ⟨0xFE12, "unaligned.", .uint8, .sequential, .fixed 0, .fixed 0⟩
  | .volatile => ⟨0xFE13, "volatile.", .none, .sequential, .fixed 0, .fixed 0⟩
  | .tail => ⟨0xFE14, "tail.", .none, .sequential, .fixed 0, .fixed 0⟩
  | .initobj => ⟨0xFE15, "initobj", .token, .sequential, .fixed 1, .fixed 0⟩
  | .constrained => ⟨0xFE16, "constrained.", .token, .sequential, .fixed 0, .fixed 0⟩
  | .cpblk => ⟨0xFE17, "cpblk", .none, .sequential, .fixed 3, .fixed 0⟩
  | .initblk => ⟨0xFE18, "initblk", .none, .sequential, .fixed 3, .fixed 0⟩
  | .no => ⟨0xFE19, "no.", .uint8, .sequential, .fixed 0, .fixed 0⟩
  | .rethrow => ⟨0xFE1A, "rethrow", .none, .raise, .fixed 0, .fixed 0⟩
  | .sizeof => ⟨0xFE1C, "sizeof", .token, .sequential, .fixed 0, .fixed 1⟩
  | .refanytype => ⟨0xFE1D, "refanytype", .none, .sequential, .fixed 1, .fixed 1⟩
  | .readonly => ⟨0xFE1E, "readonly.", .none, .sequential, .fixed 0, .fixed 0⟩

/-- Every opcode, in the order of the encoded values. -/
def all : List Opcode :=
  [.nop, .breakpoint, .ldarg0, .ldarg1, .ldarg2, .ldarg3, .ldloc0, .ldloc1, .ldloc2, .ldloc3,
   .stloc0, .stloc1, .stloc2, .stloc3, .ldargS, .ldargaS, .stargS, .ldlocS, .ldlocaS, .stlocS,
   .ldnull, .ldcI4M1, .ldcI40, .ldcI41, .ldcI42, .ldcI43, .ldcI44, .ldcI45, .ldcI46, .ldcI47,
   .ldcI48, .ldcI4S, .ldcI4, .ldcI8, .ldcR4, .ldcR8, .dup, .pop, .jmp, .call, .calli, .ret, .brS,
   .brfalseS, .brtrueS, .beqS, .bgeS, .bgtS, .bleS, .bltS, .bneUnS, .bgeUnS, .bgtUnS, .bleUnS,
   .bltUnS, .br, .brfalse, .brtrue, .beq, .bge, .bgt, .ble, .blt, .bneUn, .bgeUn, .bgtUn, .bleUn,
   .bltUn, .switch, .ldindI1, .ldindU1, .ldindI2, .ldindU2, .ldindI4, .ldindU4, .ldindI8, .ldindI,
   .ldindR4, .ldindR8, .ldindRef, .stindRef, .stindI1, .stindI2, .stindI4, .stindI8, .stindR4,
   .stindR8, .add, .sub, .mul, .div, .divUn, .rem, .remUn, .and, .or, .xor, .shl, .shr, .shrUn,
   .neg, .not, .convI1, .convI2, .convI4, .convI8, .convR4, .convR8, .convU4, .convU8, .callvirt,
   .cpobj, .ldobj, .ldstr, .newobj, .castclass, .isinst, .convRUn, .unbox, .throw, .ldfld,
   .ldflda, .stfld, .ldsfld, .ldsflda, .stsfld, .stobj, .convOvfI1Un, .convOvfI2Un, .convOvfI4Un,
   .convOvfI8Un, .convOvfU1Un, .convOvfU2Un, .convOvfU4Un, .convOvfU8Un, .convOvfIUn, .convOvfUUn,
   .box, .newarr, .ldlen, .ldelema, .ldelemI1, .ldelemU1, .ldelemI2, .ldelemU2, .ldelemI4,
   .ldelemU4, .ldelemI8, .ldelemI, .ldelemR4, .ldelemR8, .ldelemRef, .stelemI, .stelemI1,
   .stelemI2, .stelemI4, .stelemI8, .stelemR4, .stelemR8, .stelemRef, .ldelem, .stelem, .unboxAny,
   .convOvfI1, .convOvfU1, .convOvfI2, .convOvfU2, .convOvfI4, .convOvfU4, .convOvfI8, .convOvfU8,
   .refanyval, .ckfinite, .mkrefany, .ldtoken, .convU2, .convU1, .convI, .convOvfI, .convOvfU,
   .addOvf, .addOvfUn, .mulOvf, .mulOvfUn, .subOvf, .subOvfUn, .endfinally, .leave, .leaveS,
   .stindI, .convU, .arglist, .ceq, .cgt, .cgtUn, .clt, .cltUn, .ldftn, .ldvirtftn, .ldarg,
   .ldarga, .starg, .ldloc, .ldloca, .stloc, .localloc, .endfilter, .unaligned, .volatile, .tail,
   .initobj, .constrained, .cpblk, .initblk, .no, .rethrow, .sizeof, .refanytype, .readonly]

/-- The encoded value; a two-byte opcode has its mark in the high byte. -/
def value (op : Opcode) : UInt16 :=
  op.info.value

def mnemonic (op : Opcode) : String :=
  op.info.mnemonic

def operand (op : Opcode) : OperandKind :=
  op.info.operand

def flow (op : Opcode) : Flow :=
  op.info.flow

def pops (op : Opcode) : StackCount :=
  op.info.pops

def pushes (op : Opcode) : StackCount :=
  op.info.pushes

def wideMark : UInt8 := 0xFE

def isWide (op : Opcode) : Bool :=
  0xFF < op.value

def size (op : Opcode) : Nat :=
  if op.isWide then 2 else 1

def bytes (op : Opcode) : List UInt8 :=
  let low := UInt8.ofNat op.value.toNat
  if op.isWide then [UInt8.ofNat (op.value.toNat / 256), low] else [low]

def ofValue? (value : UInt16) : Option Opcode :=
  all.find? fun op => op.value == value

def ofMnemonic? (mnemonic : String) : Option Opcode :=
  all.find? fun op => op.mnemonic == mnemonic

def isBranch (op : Opcode) : Bool :=
  op.operand.isTarget || op.operand == .switch

def long? : Opcode → Option Opcode
  | .brS => some .br
  | .brfalseS => some .brfalse
  | .brtrueS => some .brtrue
  | .beqS => some .beq
  | .bgeS => some .bge
  | .bgtS => some .bgt
  | .bleS => some .ble
  | .bltS => some .blt
  | .bneUnS => some .bneUn
  | .bgeUnS => some .bgeUn
  | .bgtUnS => some .bgtUn
  | .bleUnS => some .bleUn
  | .bltUnS => some .bltUn
  | .leaveS => some .leave
  | _ => none

def short? : Opcode → Option Opcode
  | .br => some .brS
  | .brfalse => some .brfalseS
  | .brtrue => some .brtrueS
  | .beq => some .beqS
  | .bge => some .bgeS
  | .bgt => some .bgtS
  | .ble => some .bleS
  | .blt => some .bltS
  | .bneUn => some .bneUnS
  | .bgeUn => some .bgeUnS
  | .bgtUn => some .bgtUnS
  | .bleUn => some .bleUnS
  | .bltUn => some .bltUnS
  | .leave => some .leaveS
  | _ => none

def describe (op : Opcode) : String :=
  s!"OpCode({Text.Hex.marked 2 op.value.toNat}, {op.mnemonic})"

end Opcode

end CilEdit
