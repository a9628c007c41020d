import WatchExpr.Text.Basic

namespace WatchExpr

structure Options where
  config : Text := []
  arch : Text := []
  listings : Bool := false
  emitTo : Option Text := none
  runFrom : Option Text := none
  interactive : Bool := false
  expressions : List Text := []
  deriving Repr, DecidableEq

inductive OptionError where
  | unknown (name : Text)
  | needsValue (name : Text)
  deriving Repr, DecidableEq

def OptionError.message : OptionError → Text
  | unknown name => "flag provided but not defined: -" ++ name
  | needsValue name => "flag needs an argument: -" ++ name

namespace Options

/-- The name of an option, with the value after an equals sign; absent for other arguments. -/
def split? (arg : Text) : Option (Text × Option Text) :=
  let body? : Option Text :=
    match arg with
    | 0x2d :: 0x2d :: rest => some rest
    | 0x2d :: rest => some rest
    | _ => none
  body?.bind fun body =>
    let name := body.takeWhile (· != 0x3d)
    if name.isEmpty then none
    else
      match body.drop name.length with
      | [] => some (name, none)
      | _ :: value => some (name, some value)

def setFlag? (o : Options) (name : Text) : Option Options :=
  if name = ("disasm" : Text) then some { o with listings := true }
  else if name = ("i" : Text) then some { o with interactive := true }
  else none

def setValue? (o : Options) (name value : Text) : Option Options :=
  if name = ("config" : Text) then some { o with config := value }
  else if name = ("arch" : Text) then some { o with arch := value }
  else if name = ("emit" : Text) then some { o with emitTo := some value }
  else if name = ("run" : Text) then some { o with runFrom := some value }
  else none

def setValue (o : Options) (name value : Text) : Except OptionError Options :=
  match o.setValue? name value with
  | some o => .ok o
  | none => .error (.unknown name)

/-- Reads the arguments after the name of the program. -/
def parse (o : Options) : List Text → Except OptionError Options
  | [] => .ok o
  | arg :: rest =>
    match split? arg with
    | none => .ok { o with expressions := if arg = ("--" : Text) then rest else arg :: rest }
    | some (name, some value) => do
      let o ← (o.setFlag? name).elim (o.setValue name value) .ok
      parse o rest
    | some (name, none) =>
      match o.setFlag? name with
      | some o => parse o rest
      | none =>
        match rest with
        | value :: rest => do
          let o ← o.setValue name value
          parse o rest
        | [] => do
          let _ ← o.setValue name []
          throw (.needsValue name)

end Options

end WatchExpr
