import WatchExpr.Expression.Literal
import WatchExpr.Expression.Resolve

namespace WatchExpr

/-- The outcome of reading a type: the type if there is one, the tokens after it, and complaints,
which a caller that only tries may drop. -/
structure TypeParse where
  type : Option TypeExpr
  rest : List Token
  diagnostics : List Diagnostic := []

namespace TypeExpr

/-- Reads stars and array lengths after a type that starts at a position. -/
def readSuffixes (start : Nat) (t : TypeExpr) : List Token → TypeParse
  | [] => ⟨some t, [], []⟩
  | tok :: rest =>
    if tok.is "*" then readSuffixes start (.pointer ⟨start, tok.stop⟩ t) rest
    else if tok.is "[" then
      match rest with
      | n :: close :: after =>
        if n.kind = .numeric ∧ close.is "]" then
          match Literal.readCount? (Literal.trimIntSuffix n.literal) with
          | some count => readSuffixes start (.array ⟨start, close.stop⟩ t count) after
          | none => ⟨none, tok :: rest, [⟨n.start, .invalidArrayLength⟩]⟩
        else ⟨some t, tok :: rest, []⟩
      | _ => ⟨some t, tok :: rest, []⟩
    else ⟨some t, tok :: rest, []⟩

def isSignWord (tok : Token) : Bool := tok.is "unsigned" || tok.is "signed"

/-- A sign word with the builtin integer after it, 32 bits wide when there is none. -/
def readSigned (text : Text) (tok : Token) (rest : List Token) : TypeExpr × List Token :=
  let named (k : BasicKind) (stop : Nat) : TypeExpr :=
    let k := if tok.is "unsigned" then k.toUnsigned else k
    .named ⟨tok.start, stop⟩ ((text.take stop).drop tok.start) (.basic k)
  match rest with
  | next :: after =>
    match if next.kind = .identifier then builtinType? next.literal else none with
    | some k =>
      if k.group.isInteger then (named k next.stop, after) else (named .s32 tok.stop, rest)
    | none => (named .s32 tok.stop, rest)
  | [] => (named .s32 tok.stop, rest)

def read (c : Context) (text : Text) (tokens : List Token) : TypeParse :=
  match tokens with
  | [] => ⟨none, tokens, []⟩
  | tok :: rest =>
    if isSignWord tok then
      let (t, after) := readSigned text tok rest
      readSuffixes tok.start t after
    else if tok.kind = .identifier then
      match c.typeNamed? tok.literal with
      | some k => readSuffixes tok.start (.named tok.span tok.literal k) rest
      | none => ⟨none, tokens, [⟨tok.start, .unknownType tok.literal⟩]⟩
    else ⟨none, tokens, []⟩

theorem length_readSuffixes (start : Nat) (t : TypeExpr) (ts : List Token) :
    (readSuffixes start t ts).rest.length ≤ ts.length := by
  fun_induction readSuffixes start t ts <;> simp_all <;> omega

theorem length_readSigned (text : Text) (tok : Token) (ts : List Token) :
    (readSigned text tok ts).2.length ≤ ts.length := by
  simp only [readSigned]
  split
  · split
    · split <;> simp
    · exact Nat.le_refl _
  · exact Nat.le_refl _

/-- Reading a type gives back no more tokens than it was given. -/
theorem length_read (c : Context) (text : Text) (ts : List Token) :
    (read c text ts).rest.length ≤ ts.length := by
  simp only [read]
  split
  · exact Nat.le_refl _
  · rename_i tok rest
    split
    · have h₁ := length_readSigned text tok rest
      have h₂ := length_readSuffixes tok.start (readSigned text tok rest).1
        (readSigned text tok rest).2
      simp only [List.length_cons]
      omega
    · split
      · split
        · exact Nat.le_trans (length_readSuffixes _ _ _) (Nat.le_succ _)
        · exact Nat.le_refl _
      · exact Nat.le_refl _

/-- The key of a written type; pointers and arrays are added to the table as needed. -/
def key (types : TypeTable) : TypeExpr → TypeKey × TypeTable
  | named _ _ k => (k, types)
  | pointer _ elem =>
    let (k, types') := elem.key types
    if k.isZero then (.zero, types') else types'.pointer k
  | array _ elem count =>
    let (k, types') := elem.key types
    if k.isZero then (.zero, types') else types'.array k count

end TypeExpr

/-- Whether a type starts at the front of some tokens. A local hides a type of the same name. -/
def Context.startsType (c : Context) : List Token → Bool
  | [] => false
  | tok :: _ =>
    tok.kind == .identifier
      && (TypeExpr.isSignWord tok
        || (!(c.resolver.any fun r => (r.localSymbol? tok.literal).isSome)
          && (c.typeNamed? tok.literal).isSome))

inductive TypeNameError where
  | noTypes (text : Text)
  | diagnostics (ds : List Diagnostic)
  | invalid (text : Text)
  | unbuildable (text : Text)
  deriving Repr, DecidableEq

def TypeNameError.message : TypeNameError → Text
  | noTypes t => "compiler: no type provider for " ++ Quoted.quote t
  | diagnostics ds => Text.join "; " (ds.map Diagnostic.format)
  | invalid t => "compiler: invalid type name " ++ Quoted.quote t
  | unbuildable t => "compiler: cannot build type " ++ Quoted.quote t

namespace TypeTable

/-- The key of a type written on its own, with the table it is in. -/
def parseName (types : TypeTable) (text : Text) : Except TypeNameError (TypeKey × TypeTable) :=
  let parsed := TypeExpr.read { types } text (Lexer.scan text)
  if !parsed.diagnostics.isEmpty then .error (.diagnostics parsed.diagnostics)
  else
    match parsed.type, parsed.rest with
    | some t, [] =>
      let (k, types') := t.key types
      if k.isZero then .error (.unbuildable text) else .ok (k, types')
    | _, _ => .error (.invalid text)

end TypeTable

end WatchExpr
