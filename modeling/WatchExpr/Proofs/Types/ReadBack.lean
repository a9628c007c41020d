import WatchExpr.Proofs.Expression.RoundTrip
import WatchExpr.Proofs.Text.Digits
import WatchExpr.Proofs.Types.History
import WatchExpr.Types.Declarator

namespace WatchExpr

/-- A way to derive a type from another. -/
inductive Nesting where
  | pointer
  | array (count : UInt64)
  deriving DecidableEq

namespace Nesting

def count? : Nesting → Option UInt64
  | pointer => none
  | array count => some count

def request (k : TypeKey) : Nesting → TypeRequest
  | pointer => .pointer k
  | array count => .array k count

def suffix : Nesting → Text
  | pointer => [0x2a]
  | array count => 0x5b :: (Text.decimal count.toNat ++ [0x5d])

/-- The declarator around what already stands there. -/
def around : Nesting → (inner : Text) → Text
  | pointer, inner => "*" ++ inner
  | array count, inner =>
    TypeTable.parenthesize inner ++ "[" ++ Text.decimal count.toNat ++ "]"

/-- The type that a type name with one more suffix stands for. -/
def derive (named : TypeKey × TypeTable) : Nesting → TypeKey × TypeTable
  | pointer => if named.1.isZero then (.zero, named.2) else named.2.pointer named.1
  | array count => if named.1.isZero then (.zero, named.2) else named.2.array named.1 count

end Nesting

namespace TypeHistory

variable {s : TypeHistory} {k k' p : TypeKey} {b : BasicKind} {n : Nesting} {ns : List Nesting}

/-- A key that was asked for step by step from another one, the innermost step first. -/
def Derives (s : TypeHistory) : TypeKey → List Nesting → TypeKey → Prop
  | k, [], p => p = k
  | k, n :: ns, p => ∃ k', (n.request k, .key k') ∈ s.log ∧ s.Derives k' ns p

theorem derives_append (s : TypeHistory) (k : TypeKey) (ns ms : List Nesting) (p : TypeKey) :
    s.Derives k (ns ++ ms) p ↔ ∃ k', s.Derives k ns k' ∧ s.Derives k' ms p := by
  induction ns generalizing k with
  | nil => simp [Derives]
  | cons n ns ih =>
    simp only [List.cons_append, Derives, ih]
    constructor
    · rintro ⟨j, hj, k', hns, hms⟩
      exact ⟨k', ⟨j, hj, hns⟩, hms⟩
    · rintro ⟨k', ⟨j, hj, hns⟩, hms⟩
      exact ⟨j, hj, k', hns, hms⟩

namespace Sound

variable (hs : s.Sound)
include hs

theorem declarator_request (h : (n.request k, .key p) ∈ s.log) (write : TypeKey → Text)
    (depth : Nat) (inner : Text) :
    s.table.declarator write (depth + 1) p inner =
      s.table.declarator write depth k (n.around inner) := by
  cases n with
  | pointer =>
    obtain ⟨p, ⟨⟩, hp⟩ := hs.pointers h
    obtain ⟨e, he, -, hd⟩ := hs.interned.pointer hp
    have hkind : p.kind = .pointer := s.table.pointers_kind _ (TypeTable.mem_of_lookup hp)
    rw [TypeTable.declarator, hkind, TypeTable.direct_of_entry he, hd]
    rfl
  | array count =>
    obtain ⟨p, ⟨⟩, hp⟩ := hs.arrays h
    obtain ⟨e, he, -, hd, hn⟩ := hs.interned.array hp
    have hkind : p.kind = .array := s.table.arrays_kind _ (TypeTable.mem_of_lookup hp)
    have hcount : s.table.count p = count := by rw [TypeTable.count, he]; exact hn
    rw [TypeTable.declarator, hkind, TypeTable.direct_of_entry he, hd, hcount]
    rfl

theorem derive_request (h : (n.request k, .key p) ∈ s.log) (hk : k.isZero = false) :
    n.derive (k, s.table) = (p, s.table) ∧ p.isZero = false := by
  cases n with
  | pointer =>
    obtain ⟨p, ⟨⟩, hp⟩ := hs.pointers h
    have hkind : p.kind = .pointer := s.table.pointers_kind _ (TypeTable.mem_of_lookup hp)
    refine ⟨?_, by rw [TypeKey.isZero, hkind]; rfl⟩
    simp only [Nesting.derive, hk, Bool.false_eq_true, if_false, TypeTable.pointer, hp]
  | array count =>
    obtain ⟨p, ⟨⟩, hp⟩ := hs.arrays h
    have hkind : p.kind = .array := s.table.arrays_kind _ (TypeTable.mem_of_lookup hp)
    refine ⟨?_, by rw [TypeKey.isZero, hkind]; rfl⟩
    simp only [Nesting.derive, hk, Bool.false_eq_true, if_false, TypeTable.array, hp]

theorem declarator_derives (h : s.Derives (.basic b) ns p) {depth : Nat} (hd : ns.length < depth)
    (write : TypeKey → Text) (inner : Text) :
    s.table.declarator write depth p inner = (b.name, ns.foldr Nesting.around inner) := by
  obtain ⟨depth, rfl⟩ : ∃ d, depth = d + 1 := ⟨depth - 1, by omega⟩
  induction ns using List.reverseRecOn generalizing p depth inner with
  | nil =>
    rw [h]
    rfl
  | append_singleton ns n ih =>
    obtain ⟨k, hk, p, hn, rfl⟩ := (s.derives_append _ _ _ _).1 h
    rw [List.length_append, List.length_singleton] at hd
    obtain ⟨depth, rfl⟩ : ∃ d, depth = d + 1 := ⟨depth - 1, by omega⟩
    rw [hs.declarator_request hn, ih hk _ _ (by omega), List.foldr_append]
    rfl

theorem foldl_derive (h : s.Derives k ns p) (hk : k.isZero = false) :
    ns.foldl Nesting.derive (k, s.table) = (p, s.table) ∧ p.isZero = false := by
  induction ns generalizing k with
  | nil =>
    rw [h]
    exact ⟨rfl, hk⟩
  | cons n ns ih =>
    obtain ⟨k', hn, h⟩ := h
    obtain ⟨hderive, hk'⟩ := hs.derive_request hn hk
    rw [List.foldl_cons, hderive]
    exact ih h hk'

end Sound

end TypeHistory

theorem TypeTable.parenthesize_of_not_mem {inner : Text} (h : 0x28 ∉ parenthesize inner) :
    parenthesize inner = inner ∧ inner.head? ≠ some 0x2a := by
  rw [parenthesize] at h ⊢
  split at h
  · exact absurd List.mem_cons_self h
  · rename_i hstart
    refine ⟨if_neg hstart, ?_⟩
    intro hhead
    obtain ⟨rest, rfl⟩ := List.head?_eq_some_iff.1 hhead
    exact hstart rfl

namespace Nesting

variable {ns : List Nesting}

theorem around_array (count : UInt64) (inner : Text) :
    (array count).around inner = TypeTable.parenthesize inner ++ (array count).suffix := by
  rw [around, List.append_assoc, List.append_assoc]
  rfl

/-- Where no parenthesis is needed, the pointers are derived before the arrays. They are written as
suffixes, but the array that was derived last comes first. -/
theorem foldr_around (h : 0x28 ∉ ns.foldr around []) :
    ∃ (m : Nat) (counts : List UInt64), ns = List.replicate m pointer ++ counts.map array ∧
      ns.foldr around [] =
        (List.replicate m pointer ++ counts.reverse.map array).flatMap suffix := by
  induction ns with
  | nil => exact ⟨0, [], rfl, rfl⟩
  | cons n ns ih =>
    rw [List.foldr_cons] at h ⊢
    cases n with
    | pointer =>
      obtain ⟨m, counts, hns, htext⟩ := ih (List.not_mem_of_not_mem_cons h)
      refine ⟨m + 1, counts, by rw [hns]; rfl, ?_⟩
      rw [htext]
      rfl
    | array count =>
      rw [around_array] at h ⊢
      obtain ⟨hinner, hstar⟩ :=
        TypeTable.parenthesize_of_not_mem fun hmem => h (List.mem_append_left _ hmem)
      rw [hinner] at h ⊢
      obtain ⟨m, counts, hns, htext⟩ := ih fun hmem => h (List.mem_append_left _ hmem)
      cases m with
      | succ m =>
        rw [htext] at hstar
        exact absurd rfl hstar
      | zero =>
        refine ⟨0, count :: counts, by rw [hns]; rfl, ?_⟩
        rw [htext]
        simp

theorem filterMap_count (m : Nat) (counts : List UInt64) :
    (List.replicate m pointer ++ counts.map array).filterMap count? = counts := by
  have harray : count? ∘ array = some := rfl
  rw [List.filterMap_append, List.filterMap_replicate_of_none rfl, List.nil_append,
    List.filterMap_map, harray, List.filterMap_some]

end Nesting

namespace Lexer

theorem scanFrom_mark {c : UInt8} (hc : c = 0x2a ∨ c = 0x5b ∨ c = 0x5d) (position : Nat)
    (rest : Text) :
    scanFrom position (c :: rest) = ⟨.symbol, [c], position⟩ :: scanFrom (position + 1) rest := by
  have hspace : Byte.isSpace c = false := by
    obtain rfl | rfl | rfl := hc <;> rfl
  have hlong : longSymbols.any (·.isPrefixOf (c :: rest)) = false := by
    rw [any_longSymbols, longSymbols_eq]
    obtain rfl | rfl | rfl := hc <;> simp
  have hlexeme : lexeme c rest = (.symbol, 0) := by
    rw [lexeme, hlong]
    obtain rfl | rfl | rfl := hc <;> rfl
  rw [scanFrom, hspace, hlexeme]
  rfl

theorem scanFrom_decimal (n position : Nat) (rest : Text) :
    scanFrom position (Text.decimal n ++ 0x5d :: rest) =
      ⟨.numeric, Text.decimal n, position⟩ ::
        scanFrom (position + (Text.decimal n).length) (0x5d :: rest) := by
  obtain ⟨c, digits, hn⟩ := List.exists_cons_of_ne_nil (Text.decimal_ne_nil n)
  have hdigit : Byte.isDigit c = true := by
    refine Text.test_of_mem_decimal (n := n) (by decide) ?_
    rw [hn]
    exact List.mem_cons_self
  have hdigits : ∀ d ∈ digits, Byte.isAlnum d := by
    intro d hd
    refine Text.test_of_mem_decimal (n := n) (by decide) ?_
    rw [hn]
    exact List.mem_cons_of_mem c hd
  rw [hn]
  exact scanFrom_number hdigit hdigits (fun _ _ => rfl) position

end Lexer

theorem TypeExpr.readSuffixes_suffixes (start position : Nat) (t : TypeExpr) (ns : List Nesting) :
    ∃ e : TypeExpr,
      readSuffixes start t (Lexer.scanFrom position (ns.flatMap Nesting.suffix)) =
        ⟨some e, [], []⟩ ∧
      ∀ types, e.key types = ns.foldl Nesting.derive (t.key types) := by
  induction ns generalizing t position with
  | nil =>
    refine ⟨t, ?_, fun types => rfl⟩
    rw [List.flatMap_nil, Lexer.scanFrom, readSuffixes]
  | cons n ns ih =>
    rw [List.flatMap_cons]
    cases n with
    | pointer =>
      rw [Nesting.suffix, List.singleton_append, Lexer.scanFrom_mark (.inl rfl),
        readSuffixes_star rfl]
      exact ih _ _
    | array count =>
      rw [Nesting.suffix, List.cons_append, List.append_assoc, List.singleton_append,
        Lexer.scanFrom_mark (.inr (.inl rfl)), Lexer.scanFrom_decimal,
        Lexer.scanFrom_mark (.inr (.inr rfl)),
        readSuffixes_array rfl rfl (Literal.readCount?_decimal count) rfl]
      exact ih _ _

theorem BasicKind.builtinType?_name {b : BasicKind} (h : (builtinType? b.name).isSome) :
    builtinType? b.name = some b := by
  have hall : ∀ b ∈ BasicKind.all, (builtinType? b.name).isSome → builtinType? b.name = some b := by
    decide +kernel
  exact hall b (by cases b <;> decide) h

namespace TypeTable

variable {t : TypeTable} {b : BasicKind}

theorem subset_spelled (base decl : Text) : decl ⊆ spelled base decl := by
  rw [spelled]
  split
  · rename_i h
    rw [List.isEmpty_iff.1 h]
    exact List.nil_subset _
  · exact List.subset_append_right _ _

theorem scan_spelled (hb : (builtinType? b.name).isSome) (decl : Text) :
    ∃ position, Lexer.scan (spelled b.name decl) =
      ⟨.identifier, b.name, 0⟩ :: Lexer.scanFrom position decl := by
  have hstands := stands_builtin (BasicKind.builtinType?_name hb)
  cases decl with
  | nil =>
    have hscan := Lexer.scanFrom_stands Lexer.gap_nil hstands 0
    rw [List.append_nil] at hscan
    exact ⟨_, hscan⟩
  | cons c decl =>
    refine ⟨0 + b.name.length + 1, ?_⟩
    rw [spelled, List.isEmpty_cons, if_neg Bool.false_ne_true, List.append_assoc]
    refine (Lexer.scanFrom_stands (Lexer.gap_cons (c :: decl)) hstands 0).trans ?_
    rw [Lexer.scanFrom, if_pos (by decide)]

theorem parseName_spelled (hn : t.lookup? b.name = none) (hb : (builtinType? b.name).isSome)
    {ns : List Nesting} {k : TypeKey} (hk : ns.foldl Nesting.derive (.basic b, t) = (k, t))
    (hz : k.isZero = false) :
    t.parseName (spelled b.name (ns.flatMap Nesting.suffix)) = .ok (k, t) := by
  obtain ⟨position, hscan⟩ := scan_spelled hb (ns.flatMap Nesting.suffix)
  obtain ⟨e, hread, hkey⟩ := TypeExpr.readSuffixes_suffixes 0 position
    (.named ⟨0, 0 + b.name.length⟩ b.name (.basic b)) ns
  have hsign : TypeExpr.isSignWord ⟨.identifier, b.name, 0⟩ = false := by
    cases b <;> decide
  have hnamed : Context.typeNamed? { types := t } b.name = some (.basic b) := by
    rw [Context.typeNamed?, hn, BasicKind.builtinType?_name hb]
    rfl
  have hparsed : TypeExpr.read { types := t } (spelled b.name (ns.flatMap Nesting.suffix))
      (Lexer.scan (spelled b.name (ns.flatMap Nesting.suffix))) = ⟨some e, [], []⟩ := by
    rw [hscan, TypeExpr.read, hsign, hnamed]
    exact hread
  have hkey : e.key t = (k, t) := (hkey t).trans hk
  simp only [parseName, hparsed, hkey, hz, List.isEmpty_nil, Bool.not_true, Bool.false_eq_true,
    if_false]

end TypeTable

namespace TypeHistory

variable {s : TypeHistory} {k : TypeKey} {b : BasicKind} {ns : List Nesting}

theorem Sound.describe_derives (hs : s.Sound) (h : s.Derives (.basic b) ns k)
    (hd : ns.length ≤ maxChain) :
    s.table.describe k = TypeTable.spelled b.name (ns.foldr Nesting.around []) := by
  have hk : k.isZero = false := (hs.foldl_derive h rfl).2
  rw [TypeTable.describe, TypeTable.describeWithin, hk, if_neg Bool.false_ne_true,
    TypeTable.describeBy, hs.declarator_derives h (Nat.lt_succ_of_le hd)]

/-- A builtin type with at most `maxChain` pointers and arrays around it is written as a type name
that is read back as the same key, and no entry is added, where no parentheses are needed, the
lengths of the arrays are the same in both directions, and no declared type has its name. -/
theorem parseName_describe (pointerSize : Int) (rs : List TypeRequest) (b : BasicKind)
    (ns : List Nesting) (k : TypeKey) (hrs : (start pointerSize).Admits rs)
    (hb : (builtinType? b.name).isSome) (hdepth : ns.length ≤ maxChain)
    (hcounts : (ns.filterMap Nesting.count?).reverse = ns.filterMap Nesting.count?) :
    let s := (start pointerSize).run rs
    s.table.lookup? b.name = none → s.Derives (.basic b) ns k → 0x28 ∉ s.table.describe k →
      s.table.parseName (s.table.describe k) = .ok (k, s.table) := by
  intro s hname hk hplain
  have hs : s.Sound := (sound_start pointerSize).run hrs
  rw [hs.describe_derives hk hdepth] at hplain ⊢
  obtain ⟨m, counts, rfl, htext⟩ :=
    Nesting.foldr_around fun hmem => hplain (TypeTable.subset_spelled _ _ hmem)
  rw [Nesting.filterMap_count] at hcounts
  rw [htext, hcounts]
  obtain ⟨hderive, hz⟩ := hs.foldl_derive hk rfl
  exact TypeTable.parseName_spelled hname hb hderive hz

def squareRequests : List TypeRequest :=
  [.pointer (.basic .char8), .array ⟨.pointer, 1⟩ 4, .array ⟨.array, 2⟩ 4]

theorem square_read_back :
    let t := ((start 8).run squareRequests).table
    t.describe ⟨.array, 3⟩ = "char *[4][4]" ∧
      t.parseName (t.describe ⟨.array, 3⟩) = .ok (⟨.array, 3⟩, t) := by
  have hderives : ((start 8).run squareRequests).Derives (.basic .char8)
      [.pointer, .array 4, .array 4] ⟨.array, 3⟩ :=
    ⟨⟨.pointer, 1⟩, by decide +kernel, ⟨.array, 2⟩, by decide +kernel, ⟨.array, 3⟩,
      by decide +kernel, rfl⟩
  refine ⟨by decide +kernel, ?_⟩
  exact parseName_describe 8 squareRequests .char8 _ ⟨.array, 3⟩ (by decide +kernel)
    (by decide +kernel) (by decide) (by decide) (by decide +kernel) hderives (by decide +kernel)

def rowRequests : List TypeRequest := [.array (.basic .s32) 3, .array ⟨.array, 1⟩ 2]

/-- A chain of pointers that is longer than what is written out. -/
def chainRequests : List TypeRequest :=
  .pointer (.basic .s32) :: (List.range maxChain).map fun i => .pointer ⟨.pointer, i + 1⟩

theorem derives_chain :
    ((start 8).run chainRequests).Derives (.basic .s32) (List.replicate (maxChain + 1) .pointer)
      ⟨.pointer, maxChain + 1⟩ := by
  have hfirst :
      (.pointer (.basic .s32), .key ⟨.pointer, 1⟩) ∈ ((start 8).run chainRequests).log := by
    decide +kernel
  have hnext : ∀ i < maxChain, ((start 8).run chainRequests).log[maxChain - 1 - i]? =
      some (.pointer ⟨.pointer, i + 1⟩, .key ⟨.pointer, i + 2⟩) := by
    decide +kernel
  have hchain : ∀ m ≤ maxChain, ((start 8).run chainRequests).Derives ⟨.pointer, 1⟩
      (List.replicate m .pointer) ⟨.pointer, m + 1⟩ := by
    intro m hm
    induction m with
    | zero => rfl
    | succ m ih =>
      rw [List.replicate_succ', derives_append]
      exact ⟨_, ih (Nat.le_of_succ_le hm), _, List.mem_of_getElem? (hnext m hm), rfl⟩
  exact ⟨_, hfirst, hchain maxChain (Nat.le_refl _)⟩

theorem parseName_ne {t : TypeTable} {text : Text} {k : TypeKey}
    (h : (t.parseName text).toOption.map Prod.fst ≠ some k) (t' : TypeTable) :
    t.parseName text ≠ .ok (k, t') := by
  intro hok
  rw [hok] at h
  exact h rfl

/-- Arrays of different lengths in each other are read inside out, and long chains of pointers are
not written out. -/
theorem declarators_not_read_back :
    (let s := (start 8).run rowRequests
     (start 8).Admits rowRequests ∧ s.table.names = [] ∧
      s.Derives (.basic .s32) [.array 3, .array 2] ⟨.array, 2⟩ ∧
      s.table.describe ⟨.array, 2⟩ = "int32 [2][3]" ∧
      ∀ t, s.table.parseName "int32 [2][3]" ≠ .ok (⟨.array, 2⟩, t)) ∧
    (let s := (start 8).run chainRequests
     let k : TypeKey := ⟨.pointer, maxChain + 1⟩
     (start 8).Admits chainRequests ∧ s.table.names = [] ∧
      s.Derives (.basic .s32) (List.replicate (maxChain + 1) .pointer) k ∧
      0x28 ∉ s.table.describe k ∧ ∀ t, s.table.parseName (s.table.describe k) ≠ .ok (k, t)) := by
  refine ⟨⟨by decide +kernel, by decide +kernel, ?_, by decide +kernel, ?_⟩,
    by decide +kernel, by decide +kernel, derives_chain, by decide +kernel, ?_⟩
  · exact ⟨⟨.array, 1⟩, by decide +kernel, ⟨.array, 2⟩, by decide +kernel, rfl⟩
  · exact parseName_ne (by decide +kernel)
  · exact parseName_ne (by decide +kernel)

end TypeHistory

end WatchExpr
