import WatchExpr.Text.Utf8

namespace WatchExpr.Toml

inductive Scalar where
  | integer (n : Int)
  | text (t : Text)
  | flag (b : Bool)
  /-- The bits of a double-precision number. -/
  | float (bits : UInt64)
  /-- A date, a time of day or both, as written. -/
  | moment (t : Text)
  deriving Repr, DecidableEq

/-- A value as written. The keys of a record may have several names. -/
inductive Literal where
  | scalar (s : Scalar)
  | array (items : List Literal)
  | record (entries : List (List Text × Literal))

/-- A statement. The last table that was opened takes the entries that follow. -/
inductive Statement where
  | table (path : List Text)
  /-- Opens one more table of an array. -/
  | element (path : List Text)
  | entry (key : List Text) (value : Literal)

inductive Cause where
  | badEncoding
  | controlCharacter
  | noKey
  /-- Something other than an equals sign after a key. -/
  | noEquals (found : Text)
  | noBracket
  | openString
  | badEscape
  | badValue
  | noComma
  | trailing (found : Text)
  /-- A key or table that is there already, or stands where a table is due. -/
  | duplicate (path : List Text)
  deriving Repr, DecidableEq

structure SyntaxError where
  line : Nat
  cause : Cause
  deriving Repr, DecidableEq

/-- The first character of a text between apostrophes. -/
def shown (t : Text) : Text := "'" ++ t.take 1 ++ "'"

def Cause.message : Cause → Text
  | badEncoding => "invalid UTF-8 byte"
  | controlCharacter => "control characters are not allowed"
  | noKey => "bare keys cannot be empty"
  | noEquals [] => "unexpected EOF; expected key separator '='"
  | noEquals found => "expected '.' or '=', but got " ++ shown found ++ " instead"
  | noBracket => "expected '.' or ']' to end table name"
  | openString => "strings cannot contain newlines"
  | badEscape => "invalid escape character"
  | badValue => "expected value"
  | noComma => "expected a comma or a closing bracket"
  | trailing found =>
    "expected a top-level item to end with a newline, comment, or EOF, but got " ++ shown found
      ++ " instead"
  | duplicate path => "Key '" ++ Text.join "." path ++ "' has already been defined."

def SyntaxError.message (e : SyntaxError) : Text :=
  "toml: line " ++ Text.decimal e.line ++ ": " ++ e.cause.message

def isBlank (c : UInt8) : Bool := c == 0x20 || c == 0x09

def isLineEnd (c : UInt8) : Bool := c == 0x0a || c == 0x0d

def skipBlank (t : Text) : Text := t.dropWhile isBlank

/-- Skips white space, line ends and comments; `inComment` when a comment is open. -/
def skipFiller (inComment : Bool) : Text → Text
  | [] => []
  | c :: rest =>
    if inComment then skipFiller (c != 0x0a) rest
    else if isBlank c || isLineEnd c then skipFiller false rest
    else if c == 0x23 then skipFiller true rest
    else c :: rest

end WatchExpr.Toml
