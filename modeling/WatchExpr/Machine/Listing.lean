import WatchExpr.Machine.Chunk

namespace WatchExpr

namespace Instruction

/-- One instruction without its offset; `next` is the offset after it. -/
def format (next : Nat) (i : Instruction) : Text :=
  let operand := i.operand.toNat
  match i.op with
  | .cond | .skip =>
    i.op.name ++ " +" ++ Text.decimal operand ++ " (-> " ++ Text.upperHex 4 (next + operand) ++ ")"
  | .unary _ | .binary _ | .compare _ => i.op.name ++ "." ++ i.group.name
  | .const _ => i.op.name ++ " " ++ Text.decimal operand ++ " ; 0x" ++ Text.hexadecimal operand
  | .regRead =>
    "REG_READ reg=" ++ Text.decimal (operand % 256)
      ++ " size=" ++ Text.decimal (operand / 256 % 256)
      ++ " off=" ++ Text.decimal (operand / 65536 % 65536)
  | .convert =>
    "CONVERT " ++ (Group.ofByte (operand % 256).toUInt8).name
      ++ " -> " ++ (Group.ofByte (operand / 256).toUInt8).name
  | .base _ => i.op.name ++ " +0x" ++ Text.hexadecimal operand
  | .memRead | .trunc | .truncSigned | .pick | .insert => i.op.name ++ " " ++ Text.decimal operand
  | .stop | .noop | .regReadDyn | .pop | .undefined _ => i.op.name

end Instruction

namespace Code

/-- The lines of a listing from an offset on; a bad instruction ends it and is shown in place. -/
def listingFrom (offset : Nat) (code : List UInt8) : Text :=
  match code with
  | [] => []
  | b :: rest =>
    match _h : Instruction.decode b rest with
    | .error d =>
      Text.upperHex 4 offset ++ "  <" ++ (CodeError.ofDefect offset d).message ++ ">\n"
    | .ok (i, after) =>
      let next := offset + i.op.length
      Text.upperHex 4 offset ++ "  " ++ i.format next ++ "\n" ++ listingFrom next after
termination_by code.length
decreasing_by
  have := Instruction.length_of_decode _h
  simp only [List.length_cons]
  omega

def listing (name : Text) (code : List UInt8) : Text :=
  let heading : Text := if name.isEmpty then [] else "; === " ++ name ++ " ===\n"
  heading ++ "; " ++ Text.decimal code.length ++ " bytes\n" ++ listingFrom 0 code

end Code

end WatchExpr
