import WatchExpr.Machine.Chunk
import WatchExpr.Types.Relations
import WatchExpr.Expression.Scope
import WatchExpr.Expression.Diagnostic

namespace WatchExpr

def builtinSpellings : List (String × BasicKind) :=
  [("void", .void), ("bool", .bool),
    ("u8", .u8), ("uint8", .u8), ("uint8_t", .u8), ("uchar8", .uchar8),
    ("u16", .u16), ("uint16", .u16), ("uint16_t", .u16), ("uchar16", .uchar16),
    ("u32", .u32), ("uint32", .u32), ("uint32_t", .u32), ("uchar32", .uchar32),
    ("u64", .u64), ("uint64", .u64), ("uint64_t", .u64),
    ("u128", .u128), ("uint128", .u128),
    ("i8", .s8), ("s8", .s8), ("int8", .s8), ("int8_t", .s8), ("char8", .char8), ("char", .char8),
    ("i16", .s16), ("s16", .s16), ("int16", .s16), ("int16_t", .s16), ("short", .s16),
    ("char16", .char16),
    ("i32", .s32), ("s32", .s32), ("int32", .s32), ("int32_t", .s32), ("int", .s32),
    ("char32", .char32),
    ("i64", .s64), ("s64", .s64), ("int64", .s64), ("int64_t", .s64), ("long", .s64),
    ("i128", .s128), ("int128", .s128),
    ("uint", .u32),
    ("float", .f32), ("f32", .f32), ("r32", .f32),
    ("double", .f64), ("f64", .f64), ("r64", .f64),
    ("HANDLE", .handle), ("HRESULT", .hresult)]

def builtinTypes : List (Text × BasicKind) :=
  builtinSpellings.map fun (name, k) => (Text.ofString name, k)

def builtinType? (name : Text) : Option BasicKind := builtinTypes.lookup name

def BasicKind.toUnsigned : BasicKind → BasicKind
  | s8 => u8
  | char8 => uchar8
  | s16 => u16
  | char16 => uchar16
  | s32 => u32
  | char32 => uchar32
  | s64 => u64
  | s128 => u128
  | k => k

namespace Context

/-- A type by its name; declared types hide builtin ones. -/
def typeNamed? (c : Context) (name : Text) : Option TypeKey :=
  match c.types.lookup? name with
  | some k => some k
  | none => (builtinType? name).map .basic

def pointerBytes (c : Context) : UInt8 := c.arch.pointerSize.toUInt8

def registerLeaf (name : Text) (span : Span) (offset size : Nat) : Except Complaint Expr :=
  let leaf (k : BasicKind) : Except Complaint Expr :=
    .ok (.leaf span name (Code.emitConst [] offset.toUInt64) (.basic k) .register)
  match size with
  | 1 => leaf .u8
  | 2 => leaf .u16
  | 4 => leaf .u32
  | 8 => leaf .u64
  | _ => .error (.registerWithoutType name)

/-- Code that adds an offset to the top of the stack, none for zero. -/
def emitOffset (code : List UInt8) (offset : Int64) : List UInt8 :=
  if offset = 0 then code
  else Code.emitGroup (Code.emitConst code offset.toUInt64) (.binary .add) .u

/-- The code that computes a register plus an offset. -/
def registerAddress (c : Context) (sym : Symbol) : List UInt8 :=
  emitOffset (Code.emitRegRead [] sym.register c.pointerBytes 0) sym.offset

/-- The code that reads a value out of a register; narrow signed integers are sign-extended. -/
def registerValue (c : Context) (sym : Symbol) : List UInt8 :=
  let declared := c.types.byteSize sym.type
  let size := if declared = 0 ∨ 8 < declared then c.pointerBytes.toUInt64 else declared
  let read := Code.emitRegRead [] sym.register size.toUInt8 0
  if size < 8 ∧ (c.types.unwrapEnum sym.type).kind.isSigned then
    Code.emitWith read .truncSigned (size * 8)
  else read

def localLeaf (c : Context) (sym : Symbol) (span : Span) : Except Complaint Expr :=
  match sym.location with
  | .addressCode => .ok (.leaf span sym.name sym.code sym.type .address)
  | .valueCode => .ok (.leaf span sym.name sym.code sym.type .value)
  | .registerOffset => .ok (.leaf span sym.name (c.registerAddress sym) sym.type .address)
  | .registerOffsetStored =>
    let code := Code.emitWith (c.registerAddress sym) .memRead c.pointerBytes.toUInt64
    .ok (.leaf span sym.name code sym.type .address)
  | .register => .ok (.leaf span sym.name (c.registerValue sym) sym.type .value)
  | .none | .undefined _ => .error (.missingLocation sym.name)

/-- The leaf of a symbol at an unsigned 32-bit offset from a base. -/
def baseLeaf (base : Base) (mode : Mode) (sym : Symbol) (span : Span) : Except Complaint Expr :=
  if sym.offset < 0 ∨ 0xffffffff < sym.offset then .error (.offsetOutOfRange sym.name)
  else
    .ok (.leaf span sym.name (Code.emitWith [] (.base base) sym.offset.toUInt64) sym.type mode)

/-- A name read as a member of the object behind `this`. -/
def memberOfThis? (c : Context) (r : Resolver) (name : Text) (span : Span) :
    Option (Except Complaint Expr) :=
  let this : Text := "this"
  if name = this then none
  else
    match r.localSymbol? this with
    | none => none
    | some sym =>
      let record := c.types.pointee sym.type
      if !record.isZero && (c.types.members record).any (·.name == name) then
        some ((c.localLeaf sym span).map fun leaf => .member span leaf ⟨span, name⟩ true)
      else none

def registerNamed? (c : Context) (name : Text) (span : Span) : Option (Except Complaint Expr) :=
  match c.arch.register? name with
  | some r => some (registerLeaf name span r.offset r.size)
  | none => (c.arch.alias? name).map fun a => registerLeaf name span a.offset a.size

/-- A name read as a symbol outside the procedure, in its namespaces from the innermost out. -/
def outerNamed? (r : Resolver) (name : Text) (span : Span) : Option (Except Complaint Expr) :=
  let names := Namespace.candidates r.procedureName name
  match names.findSome? r.globalSymbol? with
  | some sym => some (baseLeaf .image .address sym span)
  | none =>
    match names.findSome? r.threadLocal? with
    | some sym => some (baseLeaf .thread .address sym span)
    | none => (names.findSome? r.procedure?).map fun sym => baseLeaf .image .value sym span

def resolve (c : Context) (name : Text) (span : Span) : Except Complaint Expr :=
  let inProcedure : Option (Except Complaint Expr) := c.resolver.bind fun r =>
    (c.memberOfThis? r name span).or
      ((r.localSymbol? name).map fun sym => c.localLeaf sym span)
  let bound := inProcedure.or
    ((c.registerNamed? name span).or (c.resolver.bind fun r => outerNamed? r name span))
  match bound with
  | some result => result
  | none =>
    match c.typeNamed? name with
    | some k => .ok (.type (.named span name k))
    | none => .error (.unknownIdentifier name)

end Context

end WatchExpr
