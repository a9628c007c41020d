import WatchExpr.Types.Kind

namespace WatchExpr

/-- Stands for a type; the null kind stands for none. -/
structure TypeKey where
  kind : Kind
  /-- The number of its entry, zero for builtin kinds. Tables are taken to have fewer than 2^32
  entries. -/
  id : Nat := 0
  deriving Repr, DecidableEq, Inhabited

namespace TypeKey

def zero : TypeKey := ⟨.null, 0⟩

def basic (b : BasicKind) : TypeKey := ⟨.basic b, 0⟩

def isZero (k : TypeKey) : Bool := k.kind == .null

def group (k : TypeKey) : Group := k.kind.group

def name (k : TypeKey) : Text :=
  if k.id = 0 then k.kind.name else k.kind.name ++ "#" ++ Text.decimal k.id

end TypeKey

structure Member where
  name : Text
  type : TypeKey
  offset : UInt64
  deriving Repr, DecidableEq, Inhabited

/-- What the table knows about one type. -/
structure TypeEntry where
  kind : Kind
  name : Text := []
  size : UInt64 := 0
  /-- The pointee, element, result, aliased or underlying type. -/
  direct : TypeKey := .zero
  /-- The record of a method or member pointer. -/
  owner : TypeKey := .zero
  /-- The number of elements or parameters. -/
  count : UInt64 := 0
  members : List Member := []
  params : List TypeKey := []
  deriving Repr, DecidableEq, Inhabited

/-- The types of one scope. -/
structure TypeTable where
  pointerSize : UInt64 := 8
  entries : Array TypeEntry := #[]
  /-- Named types, the latest definition of a name first. -/
  names : List (Text × TypeKey) := []
  /-- Pointer keys by pointee. -/
  pointers : List (TypeKey × TypeKey) := []
  /-- Array keys by element and count. -/
  arrays : List ((TypeKey × UInt64) × TypeKey) := []
  pointers_kind : ∀ p ∈ pointers, p.2.kind = .pointer := by simp
  arrays_kind : ∀ a ∈ arrays, a.2.kind = .array := by simp

instance : Inhabited TypeTable := ⟨{}⟩

inductive TypeError where
  | notRecordKind (kind : Kind)
  | enumBase (name : Text) (underlying : TypeKey)
  | notIncompleteKind (kind : Kind)
  | notForward (key : TypeKey)
  | unknownKey (key : TypeKey)
  deriving Repr, DecidableEq

def TypeError.message : TypeError → Text
  | notRecordKind k => "types: " ++ k.name ++ " is not a record kind"
  | enumBase n k =>
    "types: enum " ++ n ++ ": underlying type " ++ k.name ++ " is not an integer"
  | notIncompleteKind k => "types: " ++ k.name ++ " is not an incomplete kind"
  | notForward k => "types: " ++ k.name ++ " is not a forward declaration"
  | unknownKey k => "types: unknown key " ++ k.name

namespace TypeTable

/-- An empty table; a size below one asks for 8-byte pointers. -/
def empty (pointerSize : Int) : TypeTable :=
  { pointerSize := if pointerSize ≤ 0 then 8 else UInt64.ofNat pointerSize.toNat }

/-- Adds an entry and gives its key. -/
def append (t : TypeTable) (e : TypeEntry) : TypeKey × TypeTable :=
  (⟨e.kind, t.entries.size + 1⟩, { t with entries := t.entries.push e })

/-- Adds an entry and binds its name. Qualifiers and unnamed types bind nothing. -/
def add (t : TypeTable) (e : TypeEntry) : TypeKey × TypeTable :=
  let (k, t') := t.append e
  if e.name.isEmpty || e.kind == .modifier then (k, t')
  else (k, { t' with names := (e.name, k) :: t'.names })

theorem kind_add (t : TypeTable) (e : TypeEntry) : (t.add e).1.kind = e.kind := by
  simp only [add]
  split <;> rfl

def entry? (t : TypeTable) (k : TypeKey) : Option TypeEntry :=
  if k.id = 0 then none else t.entries[k.id - 1]?

theorem entry?_eq_some {t : TypeTable} {k : TypeKey} {e : TypeEntry} :
    t.entry? k = some e ↔ k.id ≠ 0 ∧ t.entries[k.id - 1]? = some e := by
  unfold entry?
  split
  · simp [*]
  · simp [*]

def defineRecord (t : TypeTable) (kind : Kind) (name : Text) (size : UInt64)
    (members : List Member) : Except TypeError (TypeKey × TypeTable) :=
  if kind.isRecord then .ok (t.add { kind, name, size, members })
  else .error (.notRecordKind kind)

/-- Adds an enumeration over a builtin integer. -/
def defineEnum (t : TypeTable) (name : Text) (underlying : TypeKey) :
    Except TypeError (TypeKey × TypeTable) :=
  if underlying.kind.isInteger then .ok (t.add { kind := .enum, name, direct := underlying })
  else .error (.enumBase name underlying)

def defineAlias (t : TypeTable) (name : Text) (direct : TypeKey) : TypeKey × TypeTable :=
  t.add { kind := .typedef, name, direct }

/-- Adds a qualified view of a type. -/
def defineModifier (t : TypeTable) (qualifier : Text) (direct : TypeKey) : TypeKey × TypeTable :=
  t.add { kind := .modifier, name := qualifier, direct }

/-- Adds a forward declaration, which binds no name. -/
def defineIncomplete (t : TypeTable) (kind : Kind) (name : Text) (direct : TypeKey) :
    Except TypeError (TypeKey × TypeTable) :=
  if kind.isIncomplete then .ok (t.append { kind, name, direct })
  else .error (.notIncompleteKind kind)

/-- Points a forward declaration at its definition. -/
def complete (t : TypeTable) (forward definition : TypeKey) : Except TypeError TypeTable :=
  if !forward.kind.isIncomplete || forward.id = 0 then .error (.notForward forward)
  else if t.entries.size < forward.id then .error (.unknownKey forward)
  else
    .ok { t with entries := t.entries.modify (forward.id - 1) fun e =>
      { e with direct := definition } }

def defineFunction (t : TypeTable) (result : TypeKey) (params : List TypeKey) :
    TypeKey × TypeTable :=
  t.add { kind := .function, direct := result, params, count := params.length.toUInt64 }

def defineMethod (t : TypeTable) (owner result : TypeKey) (params : List TypeKey) :
    TypeKey × TypeTable :=
  t.add { kind := .method, direct := result, owner, params, count := params.length.toUInt64 }

def defineMemberPointer (t : TypeTable) (owner direct : TypeKey) : TypeKey × TypeTable :=
  t.add { kind := .memberPointer, direct, owner }

/-- Adds a reference; every kind but the rvalue reference asks for an lvalue reference. -/
def reference (t : TypeTable) (kind : Kind) (direct : TypeKey) : TypeKey × TypeTable :=
  t.add { kind := if kind == .rref then .rref else .lref, direct }

/-- The pointer to a type, added when it is asked for first. -/
def pointer (t : TypeTable) (direct : TypeKey) : TypeKey × TypeTable :=
  match t.pointers.lookup direct with
  | some k => (k, t)
  | none =>
    let added := t.add { kind := .pointer, direct }
    (added.1, { added.2 with
      pointers := (direct, added.1) :: added.2.pointers
      pointers_kind := List.forall_mem_cons.2 ⟨t.kind_add _, added.2.pointers_kind⟩ })

/-- The array of some elements of a type, added when it is asked for first. -/
def array (t : TypeTable) (direct : TypeKey) (count : UInt64) : TypeKey × TypeTable :=
  match t.arrays.lookup (direct, count) with
  | some k => (k, t)
  | none =>
    let added := t.add { kind := .array, direct, count }
    (added.1, { added.2 with
      arrays := ((direct, count), added.1) :: added.2.arrays
      arrays_kind := List.forall_mem_cons.2 ⟨t.kind_add _, added.2.arrays_kind⟩ })

def direct (t : TypeTable) (k : TypeKey) : TypeKey := (t.entry? k).elim .zero (·.direct)

def owner (t : TypeTable) (k : TypeKey) : TypeKey := (t.entry? k).elim .zero (·.owner)

def count (t : TypeTable) (k : TypeKey) : UInt64 := (t.entry? k).elim 0 (·.count)

def members (t : TypeTable) (k : TypeKey) : List Member := (t.entry? k).elim [] (·.members)

def params (t : TypeTable) (k : TypeKey) : List TypeKey := (t.entry? k).elim [] (·.params)

def name (t : TypeTable) (k : TypeKey) : Text :=
  match k.kind with
  | .basic b => b.name
  | _ => (t.entry? k).elim [] (·.name)

/-- The size of a type, following at most `fuel` links; absent when they do not suffice. Sizes
wrap at two to the 64th. -/
def sizeWithin (t : TypeTable) : (fuel : Nat) → TypeKey → Option UInt64
  | 0, _ => none
  | fuel + 1, k =>
    match k.kind with
    | .basic b => some b.size
    | .pointer | .lref | .rref | .function | .method | .memberPointer => some t.pointerSize
    | .array =>
      match t.entry? k with
      | none => some 0
      | some e => (t.sizeWithin fuel e.direct).map (e.count * ·)
    | .enum | .typedef | .modifier =>
      match t.entry? k with
      | none => some 0
      | some e => t.sizeWithin fuel e.direct
    | .incomplete _ =>
      match t.entry? k with
      | none => some 0
      | some e => if e.direct.isZero then some 0 else t.sizeWithin fuel e.direct
    | _ => some ((t.entry? k).elim 0 (·.size))

/-- The size of a type, absent when its definition runs in a circle: a chain longer than the
table visits some entry twice. -/
def size? (t : TypeTable) (k : TypeKey) : Option UInt64 := t.sizeWithin (t.entries.size + 2) k

/-- The size of a type in bytes. The search for a size that runs in a circle does not end; here such
a size is 0, so what is stated of a table with one is about the questions that are answered. -/
def byteSize (t : TypeTable) (k : TypeKey) : UInt64 := (t.size? k).getD 0

def lookup? (t : TypeTable) (name : Text) : Option TypeKey := t.names.lookup name

def typeNames (t : TypeTable) : List Text := Text.sort (t.names.map Prod.fst).eraseDups

end TypeTable

end WatchExpr
