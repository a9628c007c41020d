import WatchExpr.Machine.Opcode

namespace WatchExpr

inductive BasicKind where
  | void
  | handle
  | hresult
  | char8
  | char16
  | char32
  | uchar8
  | uchar16
  | uchar32
  | u8
  | u16
  | u32
  | u64
  | u128
  | u256
  | u512
  | s8
  | s16
  | s32
  | s64
  | s128
  | s256
  | s512
  | bool
  | f16
  | f32
  | f32pp
  | f48
  | f64
  | f80
  | f128
  | complex32
  | complex64
  | complex80
  | complex128
  deriving Repr, DecidableEq

namespace BasicKind

/-- The builtin kinds in order of their numbers, which start at one. -/
def all : List BasicKind :=
  [void, handle, hresult, char8, char16, char32, uchar8, uchar16, uchar32,
    u8, u16, u32, u64, u128, u256, u512, s8, s16, s32, s64, s128, s256, s512, bool,
    f16, f32, f32pp, f48, f64, f80, f128, complex32, complex64, complex80, complex128]

def name : BasicKind → Text
  | void => "void"
  | handle => "HANDLE"
  | hresult => "HRESULT"
  | char8 => "char"
  | char16 => "char16"
  | char32 => "char32"
  | uchar8 => "uchar8"
  | uchar16 => "uchar16"
  | uchar32 => "uchar32"
  | u8 => "uint8"
  | u16 => "uint16"
  | u32 => "uint32"
  | u64 => "uint64"
  | u128 => "uint128"
  | u256 => "uint256"
  | u512 => "uint512"
  | s8 => "int8"
  | s16 => "int16"
  | s32 => "int32"
  | s64 => "int64"
  | s128 => "int128"
  | s256 => "int256"
  | s512 => "int512"
  | bool => "bool"
  | f16 => "float16"
  | f32 => "float"
  | f32pp => "float32pp"
  | f48 => "float48"
  | f64 => "double"
  | f80 => "float80"
  | f128 => "float128"
  | complex32 => "complex32"
  | complex64 => "complex64"
  | complex80 => "complex80"
  | complex128 => "complex128"

def size : BasicKind → UInt64
  | void => 0
  | char8 | uchar8 | u8 | s8 | bool => 1
  | char16 | uchar16 | u16 | s16 | f16 => 2
  | hresult | char32 | uchar32 | u32 | s32 | f32 | f32pp => 4
  | f48 => 6
  | handle | u64 | s64 | f64 | complex32 => 8
  | f80 => 10
  | u128 | s128 | f128 | complex64 => 16
  | complex80 => 20
  | u256 | s256 | complex128 => 32
  | u512 | s512 => 64

def group : BasicKind → Group
  | handle | uchar8 | uchar16 | uchar32 | u8 | u16 | u32 | u64 | u128 | u256 | u512 => .u
  | hresult | char8 | char16 | char32 | s8 | s16 | s32 | s64 | s128 | s256 | s512 | bool => .s
  | f32 => .f32
  | f64 => .f64
  | void | f16 | f32pp | f48 | f80 | f128 | complex32 | complex64 | complex80 | complex128 => .other

end BasicKind

inductive RecordKind where
  | struct
  | classType
  | union
  deriving Repr, DecidableEq

inductive ForwardKind where
  | struct
  | union
  | classType
  | enum
  deriving Repr, DecidableEq

/-- What sort of type a key stands for. -/
inductive Kind where
  /-- No type at all. -/
  | null
  | basic (b : BasicKind)
  /-- A qualified view of another type. -/
  | modifier
  | pointer
  /-- An lvalue reference. -/
  | lref
  /-- An rvalue reference. -/
  | rref
  | array
  | function
  | method
  | memberPointer
  | record (r : RecordKind)
  | enum
  | typedef
  /-- A forward declaration. -/
  | incomplete (f : ForwardKind)
  | bitfield
  | variadic
  /-- A number that is no kind. -/
  | undefined (number : UInt8)
  deriving Repr, DecidableEq, Inhabited

namespace Kind

def ofNumber (n : UInt8) : Kind :=
  match n.toNat with
  | 0 => null
  | 36 => modifier
  | 37 => pointer
  | 38 => lref
  | 39 => rref
  | 40 => array
  | 41 => function
  | 42 => method
  | 43 => memberPointer
  | 44 => record .struct
  | 45 => record .classType
  | 46 => record .union
  | 47 => enum
  | 48 => typedef
  | 49 => incomplete .struct
  | 50 => incomplete .union
  | 51 => incomplete .classType
  | 52 => incomplete .enum
  | 53 => bitfield
  | 54 => variadic
  | k + 1 =>
    match BasicKind.all[k]? with
    | some b => basic b
    | none => undefined n

def name : Kind → Text
  | null => "<null>"
  | basic b => b.name
  | modifier => "modifier"
  | pointer => "pointer"
  | lref => "lvalue reference"
  | rref => "rvalue reference"
  | array => "array"
  | function => "function"
  | method => "method"
  | memberPointer => "member pointer"
  | record .struct | incomplete .struct => "struct"
  | record .classType | incomplete .classType => "class"
  | record .union | incomplete .union => "union"
  | enum | incomplete .enum => "enum"
  | typedef => "alias"
  | bitfield => "bitfield"
  | variadic => "..."
  | undefined n => "Kind(" ++ Text.decimal n.toNat ++ ")"

def group : Kind → Group
  | basic b => b.group
  | pointer | lref | rref | function | method | memberPointer => .u
  | _ => .other

def basicSize : Kind → UInt64
  | basic b => b.size
  | _ => 0

def isBasic : Kind → Bool
  | basic _ => true
  | _ => false

def isInteger : Kind → Bool
  | basic b => b.group.isInteger
  | _ => false

def isFloat : Kind → Bool
  | basic .f32 | basic .f64 => true
  | _ => false

def isSigned : Kind → Bool
  | basic b => b.group == .s
  | _ => false

def isPointerLike : Kind → Bool
  | pointer | lref | rref => true
  | _ => false

def isRecord : Kind → Bool
  | record _ => true
  | _ => false

def isIncomplete : Kind → Bool
  | incomplete _ => true
  | _ => false

/-- Kinds whose types carry a declared name. -/
def isUserDefined : Kind → Bool
  | record _ | enum | typedef | incomplete _ => true
  | _ => false

/-- Kinds that only rename or announce another type. -/
def isTransparent : Kind → Bool
  | modifier | typedef | incomplete _ => true
  | _ => false

end Kind

end WatchExpr
