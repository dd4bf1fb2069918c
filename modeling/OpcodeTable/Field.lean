import OpcodeTable.BitRange

namespace OpcodeTable

inductive Tag
  | extension
  | register
  | immediate
  | control
  deriving DecidableEq, Repr

def Tag.weight : Tag → Nat
  | extension => 1
  | register => 2
  | immediate => 4
  | control => 8

inductive Field
  | imm11 | imm11hi | imm11lo | imm5 | cshamt | cmshamt | b0 | b1 | b2 | b3 | ca | cb
  | cc | cd | crs1 | crs2 | crs3 | crs4 | crd | crdm | lut4 | rd | rs1 | rs2 | rs3 | aqrl
  | fm | pred | succ | rm | imm20 | jimm20 | imm12 | imm12hi | bimm12hi | imm12lo
  | bimm12lo | zimm | shamt | shamtw | vseglen | opcode | funct3 | funct7
  deriving DecidableEq, Repr

namespace Field

structure Descriptor where
  name : String
  range : BitRange
  operandCode : Option String
  tags : List Tag

def descriptor : Field → Descriptor
  | imm11 => ⟨"imm11", .between 31 21, some "Xl", [.extension, .immediate]⟩
  | imm11hi => ⟨"imm11hi", .between 31 25, some "Xm", [.extension, .immediate]⟩
  | imm11lo => ⟨"imm11lo", .between 10 7, some "Xn", [.extension, .immediate]⟩
  | imm5 => ⟨"imm5", .between 19 15, some "Xo", [.extension, .immediate]⟩
  | cshamt => ⟨"cshamt", .between 23 20, some "XR", [.extension, .immediate]⟩
  | cmshamt => ⟨"cmshamt", .between 27 24, some "Xr", [.extension, .immediate]⟩
  | b0 => ⟨"b0", .between 31 30, some "Xw", [.extension, .immediate]⟩
  | b1 => ⟨"b1", .between 29 28, some "Xx", [.extension, .immediate]⟩
  | b2 => ⟨"b2", .between 27 26, some "Xy", [.extension, .immediate]⟩
  | b3 => ⟨"b3", .between 25 24, some "Xz", [.extension, .immediate]⟩
  | ca => ⟨"ca", .between 24 24, some "Xa", [.extension, .control]⟩
  | cb => ⟨"cb", .between 19 19, some "Xb", [.extension, .control]⟩
  | cc => ⟨"cc", .between 11 11, some "Xc", [.extension, .control]⟩
  | cd => ⟨"cd", .between 20 20, some "Xd", [.extension, .control]⟩
  | crs1 => ⟨"crs1", .between 18 15, some "Xs", [.extension, .register]⟩
  | crs2 => ⟨"crs2", .between 23 20, some "Xt", [.extension, .register]⟩
  | crs3 => ⟨"crs3", .between 27 24, some "XS", [.extension, .register]⟩
  | crs4 => ⟨"crs4", .between 31 28, some "XT", [.extension, .register]⟩
  | crd => ⟨"crd", .between 10 7, some "XD", [.extension, .register]⟩
  | crdm => ⟨"crdm", .between 9 7, some "XM", [.extension, .register]⟩
  | lut4 => ⟨"lut4", .between 28 25, some "Xl", [.extension, .immediate]⟩
  | rd => ⟨"rd", .between 11 7, some "Xd", [.register]⟩
  | rs1 => ⟨"rs1", .between 19 15, some "Xs", [.register]⟩
  | rs2 => ⟨"rs2", .between 24 20, none, [.register]⟩
  | rs3 => ⟨"rs3", .between 31 27, none, [.register]⟩
  | aqrl => ⟨"aqrl", .between 26 25, none, [.control]⟩
  | fm => ⟨"fm", .between 31 28, none, [.control]⟩
  | pred => ⟨"pred", .between 27 24, none, [.control]⟩
  | succ => ⟨"succ", .between 23 20, none, [.control]⟩
  | rm => ⟨"rm", .between 14 12, none, [.control]⟩
  | imm20 => ⟨"imm20", .between 31 12, none, [.immediate]⟩
  | jimm20 => ⟨"jimm20", .between 31 12, none, [.immediate]⟩
  | imm12 => ⟨"imm12", .between 31 20, none, [.immediate]⟩
  | imm12hi => ⟨"imm12hi", .between 31 25, none, [.immediate]⟩
  | bimm12hi => ⟨"bimm12hi", .between 31 25, none, [.immediate]⟩
  | imm12lo => ⟨"imm12lo", .between 11 7, none, [.immediate]⟩
  | bimm12lo => ⟨"bimm12lo", .between 11 7, none, [.immediate]⟩
  | zimm => ⟨"zimm", .between 19 15, none, [.immediate]⟩
  | shamt => ⟨"shamt", .between 25 20, none, [.immediate]⟩
  | shamtw => ⟨"shamtw", .between 24 20, none, [.immediate]⟩
  | vseglen => ⟨"vseglen", .between 31 29, none, [.control]⟩
  | opcode => ⟨"opcode", .between 6 0, none, [.control]⟩
  | funct3 => ⟨"funct3", .between 14 12, none, [.control]⟩
  | funct7 => ⟨"funct7", .between 31 25, none, [.control]⟩

def name (f : Field) : String := f.descriptor.name

def range (f : Field) : BitRange := f.descriptor.range

def operandCode (f : Field) : Option String := f.descriptor.operandCode

def tags (f : Field) : List Tag := f.descriptor.tags

def isExtension (f : Field) : Bool := f.tags.contains .extension

def all : List Field :=
  [imm11, imm11hi, imm11lo, imm5, cshamt, cmshamt, b0, b1, b2, b3, ca, cb, cc, cd, crs1, crs2,
    crs3, crs4, crd, crdm, lut4, rd, rs1, rs2, rs3, aqrl, fm, pred, succ, rm, imm20, jimm20,
    imm12, imm12hi, bimm12hi, imm12lo, bimm12lo, zimm, shamt, shamtw, vseglen, opcode, funct3,
    funct7]

theorem mem_all (f : Field) : f ∈ all := by
  cases f <;> decide

def index (f : Field) : Nat := all.idxOf f

def extensionFields : List Field := all.filter isExtension

def ofName? (name : String) : Option Field := all.find? fun f => f.name == name

theorem name_of_ofName? {name : String} {f : Field} (h : ofName? name = some f) :
    f.name = name := by
  simpa using List.find?_some h

end Field

end OpcodeTable
