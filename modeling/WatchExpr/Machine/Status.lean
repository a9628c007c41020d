import WatchExpr.Text.Basic

namespace WatchExpr

/-- Why a run failed. -/
inductive Fault where
  | badOp
  | badOpTypes
  | badMemRead
  | badRegRead
  | badFrameBase
  | badModuleBase
  | badTlsBase
  | insufficientStackSpace
  | divideByZero
  | malformedBytecode
  deriving Repr, DecidableEq

namespace Fault

def code : Fault → Nat
  | badOp => 1
  | badOpTypes => 2
  | badMemRead => 3
  | badRegRead => 4
  | badFrameBase => 5
  | badModuleBase => 6
  | badTlsBase => 7
  | insufficientStackSpace => 8
  | divideByZero => 9
  | malformedBytecode => 10

def name : Fault → Text
  | badOp => "BadOp"
  | badOpTypes => "BadOpTypes"
  | badMemRead => "BadMemRead"
  | badRegRead => "BadRegRead"
  | badFrameBase => "BadFrameBase"
  | badModuleBase => "BadModuleBase"
  | badTlsBase => "BadTLSBase"
  | insufficientStackSpace => "InsufficientStackSpace"
  | divideByZero => "DivideByZero"
  | malformedBytecode => "MalformedBytecode"

def message : Fault → Text
  | badOp => "invalid or truncated instruction"
  | badOpTypes => "operation not defined for operand type"
  | badMemRead => "memory read failed"
  | badRegRead => "register read out of range"
  | badFrameBase => "no frame base available"
  | badModuleBase => "no module base available"
  | badTlsBase => "no thread-local base available"
  | insufficientStackSpace => "evaluation stack overflow"
  | divideByZero => "division by zero"
  | malformedBytecode => "program did not leave exactly one value"

def all : List Fault :=
  [badOp, badOpTypes, badMemRead, badRegRead, badFrameBase, badModuleBase, badTlsBase,
    insufficientStackSpace, divideByZero, malformedBytecode]

end Fault

/-- The status number of a run. -/
inductive Status where
  | good
  | failed (fault : Fault)
  /-- A number that is no status. -/
  | unknown (code : Nat)
  deriving Repr, DecidableEq

namespace Status

def ofCode (n : Nat) : Status :=
  if n = 0 then good
  else
    match Fault.all.find? (·.code == n) with
    | some f => failed f
    | none => unknown n

def code : Status → Nat
  | good => 0
  | failed f => f.code
  | unknown n => n

def name : Status → Text
  | good => "Good"
  | failed f => f.name
  | unknown n => "Status(" ++ Text.decimal n ++ ")"

def message? : Status → Option Text
  | good => none
  | failed f => some f.message
  | unknown n => some ("unknown status " ++ Text.decimal n)

def resultMessage? (s : Status) : Option Text := s.message?.map ("bytecode: " ++ ·)

def ofName? (name : Text) : Option Status :=
  if name = Status.good.name then some good
  else (Fault.all.find? (·.name == name)).map failed

end Status

end WatchExpr
