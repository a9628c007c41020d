import WatchExpr.Evaluation.Session
import WatchExpr.Proofs.Lexical.Serialization
import WatchExpr.Proofs.Lowering.Recompilation

namespace WatchExpr

structure DebugScope.Closed (s : DebugScope) : Prop where
  types : s.types.Closed
  symbols : ∀ p ∈ s.locals ++ s.globals ++ s.threadLocals ++ s.procedures, s.types.Has p.2.type

theorem DebugScope.Closed.context {s : DebugScope} (h : s.Closed) (maxDepth : Int) :
    (s.context maxDepth).Closed where
  types := h.types
  symbols r name sym hr hs := by
    cases hr
    have hmem : (name, sym) ∈ s.locals ++ s.globals ++ s.threadLocals ++ s.procedures := by
      obtain hs | hs | hs | hs := hs <;> have := TypeTable.mem_of_lookup hs <;> simp [this]
    exact h.symbols _ hmem

theorem text_compile (c : Context) (text : Text) : (compile c text).1.text = text := by
  simp only [compile]
  obtain ⟨o, s⟩ := (Lowering.lower (Parser.parse c text (Lexer.scan text)).1).run { types := c.types }
  cases o with
  | none => rfl
  | some r =>
    simp only
    split
    · rfl
    · split
      · rfl
      · split
        · rfl
        · split <;> rfl

inductive Call where
  | compile (text : Text)
  | evaluate (text : Text)
  | setCacheSize (n : Int)
  | setProcedure (name : Text)

namespace Call

def compiles : Call → Bool
  | compile _ | evaluate _ => true
  | setCacheSize _ | setProcedure _ => false

/-- The serialized keys of some calls that start in a procedure. -/
def keys (procedure : Text) : List Call → List (List UInt8)
  | [] => []
  | compile text :: calls | evaluate text :: calls =>
    Fingerprint.serialize (Lexer.tokenize text) procedure :: keys procedure calls
  | setCacheSize _ :: calls => keys procedure calls
  | setProcedure name :: calls => keys name calls

/-- The names of the procedures that some calls enter. -/
def procedures (calls : List Call) : List Text :=
  calls.filterMap fun
    | setProcedure name => some name
    | _ => none

end Call

namespace Session

def call (s : Session) : Call → Session
  | .compile text => (s.compile text).2
  | .evaluate text => (s.evaluate text).2
  | .setCacheSize n => s.setCacheSize n
  | .setProcedure name => s.setProcedure name

def calls (s : Session) (cs : List Call) : Session := cs.foldl call s

theorem calls_cons (s : Session) (c : Call) (cs : List Call) :
    s.calls (c :: cs) = (s.call c).calls cs := rfl

/-- A text compiled in the context as it is now, past the cache. -/
def uncached (s : Session) (text : Text) : Compiled × TypeTable :=
  WatchExpr.compile (s.scope.context s.maxDepth) text

/-- Compiling a text in the session gives what compiling it past the cache gives, and adds the same
types. -/
structure Transparent (s : Session) (t : Text) : Prop where
  text : (s.compile t).1.text = t
  code : (s.compile t).1.code = (s.uncached t).1.code
  valueCode : (s.compile t).1.valueCode = (s.uncached t).1.valueCode
  type : (s.compile t).1.type = (s.uncached t).1.type
  mode : (s.compile t).1.lowered.map (·.mode) = (s.uncached t).1.lowered.map (·.mode)
  diagnostics : (s.compile t).1.diagnostics = (s.uncached t).1.diagnostics
  types : (s.compile t).2.scope.types = (s.uncached t).2
  outcome : (s.evaluate t).1.outcome = ((s.uncached t).1.run s.machine).outcome

/-- A compilation stays right for its tokens in its procedure, however the table grows. -/
def Stays (s : Session) (text procedure : Text) (c : Compiled) : Prop :=
  ∀ types text', s.scope.types.Grows types →
    (Lexer.scan text').map Token.erase = (Lexer.scan text).map Token.erase →
    c.Same (WatchExpr.compile ({ s.scope with types, procedure }.context s.maxDepth) text').1 ∧
      (WatchExpr.compile ({ s.scope with types, procedure }.context s.maxDepth) text').2 = types

/-- The cache holds no more than it may, and what it holds is right; its keys are among some. -/
structure Sound (s : Session) (keys : List (List UInt8)) : Prop where
  scope : s.scope.Closed
  short : s.scope.procedure.length < 2 ^ 32
  bound : (s.cache.length : Int) ≤ max s.limit 0
  entries : ∀ k c, (k, c) ∈ s.cache → ∃ text procedure,
    k = Fingerprint.inScope text procedure ∧
    Fingerprint.serialize (Lexer.tokenize text) procedure ∈ keys ∧
    procedure.length < 2 ^ 32 ∧ s.Stays text procedure c

section
variable {s : Session} {keys : List (List UInt8)} {text : Text}

theorem compile_hit {c : Compiled} (h : s.cache.lookup (s.key text) = some c) :
    s.compile text = ({ c with text }, { s with hits := s.hits + 1 }) := by
  simp only [compile, h]

theorem compile_miss (h : s.cache.lookup (s.key text) = none) :
    s.compile text = ((s.uncached text).1,
      keep { s with scope := { s.scope with types := (s.uncached text).2 }, misses := s.misses + 1 }
        (s.key text) (s.uncached text).1) := by
  simp only [compile, h, uncached]

theorem keep_eq (s : Session) (key : List UInt8) (c : Compiled) :
    s.keep key c = { s with cache := (s.keep key c).cache } := by
  simp only [keep]
  split
  · split <;> rfl
  · rfl

theorem mem_keep {key k : List UInt8} {c c' : Compiled} (h : (k, c') ∈ (s.keep key c).cache) :
    (k, c') ∈ s.cache ∨ (k = key ∧ c' = c ∧ c.diagnostics = []) := by
  simp only [keep] at h
  split at h
  · rename_i hd
    simp only [Bool.and_eq_true, List.isEmpty_iff] at hd
    split at h
    · cases List.mem_singleton.1 h
      exact .inr ⟨rfl, rfl, hd.1⟩
    · obtain h | h := List.mem_cons.1 h
      · cases h
        exact .inr ⟨rfl, rfl, hd.1⟩
      · exact .inl h
  · exact .inl h

theorem bound_keep (h : (s.cache.length : Int) ≤ max s.limit 0) (key : List UInt8) (c : Compiled) :
    ((s.keep key c).cache.length : Int) ≤ max s.limit 0 := by
  simp only [keep]
  split
  · rename_i hd
    simp only [Bool.and_eq_true, decide_eq_true_eq] at hd
    split
    · simp only [List.length_singleton]
      omega
    · simp only [List.length_cons]
      omega
  · exact h

section Lookup
variable (h : s.Sound keys)
  (hsha : ∀ a ∈ keys, ∀ b ∈ keys, Sha256.hash a = Sha256.hash b → a = b)
  (hk : Fingerprint.serialize (Lexer.tokenize text) s.scope.procedure ∈ keys)
include h hsha hk

/-- What was kept for a key is what compiling its text now gives. -/
theorem Sound.same_of_lookup {c : Compiled} (hc : s.cache.lookup (s.key text) = some c) :
    c.Same (s.uncached text).1 ∧ (s.uncached text).2 = s.scope.types := by
  obtain ⟨text', procedure, hkey, hmem, hlen, hstays⟩ :=
    h.entries _ c (TypeTable.mem_of_lookup hc)
  obtain ⟨hp, ht⟩ := Fingerprint.serialize_inj h.short hlen (hsha _ hk _ hmem hkey)
  subst hp
  exact hstays s.scope.types text (.refl _) ht

theorem Sound.transparent : s.Transparent text := by
  cases hc : s.cache.lookup (s.key text) with
  | none =>
    have htypes (s : Session) (key : List UInt8) (c : Compiled) :
        (s.keep key c).scope = s.scope ∧ (s.keep key c).machine = s.machine := by
      rw [keep_eq]
      exact ⟨rfl, rfl⟩
    constructor
    all_goals simp only [evaluate, compile_miss hc, htypes]
    exact text_compile _ text
  | some c =>
    obtain ⟨⟨hl, hcode, htree, hvalue, hd⟩, ht⟩ := h.same_of_lookup hsha hk hc
    constructor
    all_goals simp only [evaluate, compile_hit hc]
    · exact hcode.symm
    · exact hvalue.symm
    · simp only [Compiled.type, hl]
    · rw [hl]
    · exact hd.symm
    · exact ht.symm
    · simp only [Compiled.run, hd, hvalue]
      split <;> rfl

end Lookup

theorem Sound.compile (h : s.Sound keys)
    (hk : Fingerprint.serialize (Lexer.tokenize text) s.scope.procedure ∈ keys) :
    Sound (s.compile text).2 keys := by
  cases hc : s.cache.lookup (s.key text) with
  | some c =>
    rw [compile_hit hc]
    exact ⟨h.scope, h.short, h.bound, h.entries⟩
  | none =>
    rw [compile_miss hc, keep_eq]
    obtain ⟨hg, hclosed⟩ := compile_grows (h.scope.context s.maxDepth) text
    refine ⟨⟨hclosed, fun p hp => (h.scope.symbols p hp).grows hg⟩, h.short, ?_, ?_⟩
    · exact bound_keep (s := { s with scope := { s.scope with types := (s.uncached text).2 }
                                      misses := s.misses + 1 }) h.bound _ _
    · intro k c hmem
      obtain hmem | ⟨rfl, rfl, hd⟩ := mem_keep hmem
      · obtain ⟨text', procedure, hkey, hin, hlen, hstays⟩ := h.entries k c hmem
        refine ⟨text', procedure, hkey, hin, hlen, ?_⟩
        exact fun types text hg' ht => hstays types text (hg.trans hg') ht
      · refine ⟨text, s.scope.procedure, rfl, hk, h.short, fun types text' hg' ht => ?_⟩
        exact compile_again (h.scope.context s.maxDepth) ht hd hg'

theorem Sound.setCacheSize (h : s.Sound keys) (n : Int) : (s.setCacheSize n).Sound keys := by
  refine ⟨h.scope, h.short, ?_, fun k c hmem => ?_⟩
  · simp only [Session.setCacheSize]
    split
    · simp only [List.length_nil]
      omega
    · omega
  · simp only [Session.setCacheSize] at hmem
    split at hmem
    · cases hmem
    · exact h.entries k c hmem

theorem Sound.setProcedure (h : s.Sound keys) {name : Text} (hn : name.length < 2 ^ 32) :
    (s.setProcedure name).Sound keys :=
  ⟨⟨h.scope.types, h.scope.symbols⟩, hn, h.bound, h.entries⟩

theorem procedure_compile (s : Session) (text : Text) :
    (s.compile text).2.scope.procedure = s.scope.procedure := by
  cases hc : s.cache.lookup (s.key text) with
  | some c => rw [compile_hit hc]
  | none => rw [compile_miss hc, keep_eq]

theorem Sound.calls {cs : List Call} (h : s.Sound keys)
    (hk : ∀ k ∈ Call.keys s.scope.procedure cs, k ∈ keys)
    (hn : ∀ name ∈ Call.procedures cs, name.length < 2 ^ 32) : (s.calls cs).Sound keys := by
  induction cs generalizing s with
  | nil => exact h
  | cons c cs ih =>
    cases c with
    | compile text =>
      obtain ⟨hk, hks⟩ := List.forall_mem_cons.1 hk
      rw [← procedure_compile s text] at hks
      exact ih (h.compile hk) hks hn
    | evaluate text =>
      obtain ⟨hk, hks⟩ := List.forall_mem_cons.1 hk
      rw [← procedure_compile s text] at hks
      exact ih (h.compile hk) hks hn
    | setCacheSize n => exact ih (h.setCacheSize n) hk hn
    | setProcedure name =>
      obtain ⟨hn, hns⟩ := List.forall_mem_cons.1 hn
      exact ih (h.setProcedure hn) hk hns

theorem hits_add_misses (s : Session) (cs : List Call) :
    (s.calls cs).hits + (s.calls cs).misses = s.hits + s.misses + cs.countP Call.compiles := by
  have hcompile (s : Session) (text : Text) :
      (s.compile text).2.hits + (s.compile text).2.misses = s.hits + s.misses + 1 := by
    cases hc : s.cache.lookup (s.key text) with
    | some c =>
      rw [compile_hit hc]
      simp only
      omega
    | none =>
      rw [compile_miss hc, keep_eq]
      simp only
      omega
  induction cs generalizing s with
  | nil => rfl
  | cons c cs ih =>
    rw [calls_cons, ih, List.countP_cons]
    cases c with
    | compile text =>
      have := hcompile s text
      simp only [call, Call.compiles, if_true]
      omega
    | evaluate text =>
      have := hcompile s text
      simp only [call, evaluate, Call.compiles, if_true]
      omega
    | setCacheSize n => rfl
    | setProcedure name => rfl

theorem keys_append (s : Session) (before later : List Call) :
    Call.keys s.scope.procedure (before ++ later) = Call.keys s.scope.procedure before ++
      Call.keys (s.calls before).scope.procedure later := by
  induction before generalizing s with
  | nil => rfl
  | cons c before ih =>
    have := ih (s.call c)
    cases c with
    | compile text =>
      rw [show (s.call (.compile text)).scope.procedure = _ from procedure_compile s text] at this
      exact congrArg (_ :: ·) this
    | evaluate text =>
      rw [show (s.call (.evaluate text)).scope.procedure = _ from procedure_compile s text] at this
      exact congrArg (_ :: ·) this
    | setCacheSize n => exact this
    | setProcedure name => exact this

end

/-- At every point of a sequence of calls on a fresh session the cache is within its limit, hits
and misses add up to the texts compiled so far, and the next text compiles as it would without a
cache. A size that runs in a circle counts as 0 (`TypeTable.byteSize`). -/
theorem cache_transparent (s : Session) (cs : List Call)
    (hfresh : s.cache = [] ∧ s.hits = 0 ∧ s.misses = 0) (hscope : s.scope.Closed)
    (hshort : ∀ name ∈ s.scope.procedure :: Call.procedures cs, name.length < 2 ^ 32)
    (hsha : ∀ a ∈ Call.keys s.scope.procedure cs, ∀ b ∈ Call.keys s.scope.procedure cs,
      Sha256.hash a = Sha256.hash b → a = b) :
    ∀ before later, cs = before ++ later →
      ((s.calls before).cache.length : Int) ≤ max (s.calls before).limit 0 ∧
      (s.calls before).hits + (s.calls before).misses = before.countP Call.compiles ∧
      ∀ text after, later = .compile text :: after ∨ later = .evaluate text :: after →
        (s.calls before).Transparent text := by
  rintro before later rfl
  obtain ⟨hempty, hhits, hmisses⟩ := hfresh
  obtain ⟨hp, hnames⟩ := List.forall_mem_cons.1 hshort
  have hstart : s.Sound (Call.keys s.scope.procedure (before ++ later)) := by
    refine ⟨hscope, hp, ?_, ?_⟩
    · rw [hempty]
      exact Int.le_max_right _ _
    · simp [hempty]
  have hsound : (s.calls before).Sound (Call.keys s.scope.procedure (before ++ later)) := by
    refine hstart.calls ?_ ?_
    · rw [keys_append]
      exact fun k hk => List.mem_append_left _ hk
    · intro name hn
      apply hnames
      rw [Call.procedures, List.filterMap_append]
      exact List.mem_append_left _ hn
  refine ⟨hsound.bound, by rw [hits_add_misses, hhits, hmisses, Nat.zero_add], ?_⟩
  intro text after hlater
  apply hsound.transparent hsha
  rw [keys_append]
  apply List.mem_append_right
  obtain rfl | rfl := hlater <;> exact List.mem_cons_self

def frameScope : DebugScope :=
  { arch := .x64
    types := .empty 8
    locals := [("x", { name := "x", type := .basic .s32, location := .registerOffset,
                       register := 1, offset := 8 })] }

theorem closed_frameScope : frameScope.Closed where
  types := TypeTable.closed_empty 8
  symbols := List.forall_mem_singleton.2 (Nat.zero_le _)

/-- The pointer type was added when the address was taken first, and is found the second time. -/
theorem address_transparent :
    (calls { scope := frameScope } [.compile "&x", .setCacheSize 1]).Transparent "& x" := by
  have hspace : Fingerprint.serialize (Lexer.tokenize "& x") [] =
      Fingerprint.serialize (Lexer.tokenize "&x") [] := by decide +kernel
  refine (cache_transparent { scope := frameScope }
    [.compile "&x", .setCacheSize 1, .evaluate "& x"] ⟨rfl, rfl, rfl⟩ closed_frameScope ?_ ?_
    [.compile "&x", .setCacheSize 1] [.evaluate "& x"] rfl).2.2 "& x" [] (.inr rfl)
  · exact List.forall_mem_singleton.2 (by decide)
  · intro a ha b hb _
    rw [frameScope, Call.keys, Call.keys, Call.keys, Call.keys, hspace] at ha hb
    simp only [List.mem_cons, List.not_mem_nil, or_false, or_self] at ha hb
    rw [ha, hb]

theorem lookup_compile {s : Session} {text : Text} (hc : s.cache = []) (hl : 0 < s.limit)
    (hd : (s.uncached text).1.diagnostics = []) :
    (s.compile text).2.cache.lookup (s.key text) = some (s.uncached text).1 := by
  have hkeep : ((s.uncached text).1.diagnostics.isEmpty && decide (0 < s.limit)) = true := by
    simp [hd, hl]
  rw [compile_miss (by rw [hc]; rfl)]
  simp only [keep, hkeep, if_true]
  split <;> simp

/-- A register local whose type is an alias that is not there, next to a global whose pointer takes
the place of the alias. -/
def danglingScope : DebugScope :=
  { arch := .x64
    types := .empty 8
    locals := [("y", { name := "y", type := ⟨.typedef, 1⟩, location := .register, register := 1 })]
    globals := [("z", { name := "z", type := .basic .s8, offset := 16 })] }

/-- Once the pointer is there, compiling the text again would read the local differently. -/
theorem dangling_not_transparent :
    ¬ (compile { scope := danglingScope } "&z ? y : y").2.Transparent "&z ? y : y" := by
  intro h
  have hd : (uncached { scope := danglingScope } "&z ? y : y").1.diagnostics = [] := by
    decide +kernel
  have hlookup := lookup_compile rfl (by decide) hd
  have hcode := h.code
  rw [compile_hit (by rw [key, procedure_compile]; exact hlookup), compile_miss rfl, keep_eq]
    at hcode
  exact absurd hcode (by decide +kernel)

/-- A string literal of `n + 2` bytes before a number. -/
def quotedText (n : Nat) : Text := 0x22 :: (List.replicate n 0x61 ++ [0x22, 0x31])

theorem scan_quotedText (n : Nat) : Lexer.scan (quotedText n) =
    [⟨.string, 0x22 :: (List.replicate n 0x61 ++ [0x22]), 0⟩, ⟨.numeric, "1", n + 2⟩] := by
  have hq : Lexer.quotedLength 0x22 (List.replicate n 0x61 ++ [0x22, 0x31]) = n + 1 :=
    Lexer.quotedLength_replicate (by decide) (by decide) (by decide) n [0x31]
  have hl : Lexer.lexeme 0x22 (List.replicate n 0x61 ++ [0x22, 0x31]) = (.string, n + 1) := by
    rw [Lexer.lexeme.eq_def, hq]
    rfl
  have hcut : List.replicate n 0x61 ++ [0x22, 0x31] =
      (List.replicate n 0x61 ++ [0x22]) ++ [(0x31 : UInt8)] := by simp
  have hlen : (List.replicate n (0x61 : UInt8) ++ [0x22]).length = n + 1 := by simp
  have hone (p : Nat) : Lexer.scanFrom p [0x31] = [⟨.numeric, "1", p⟩] := by
    with_unfolding_all rfl
  rw [Lexer.scan, quotedText, Lexer.scanFrom, if_neg (by decide), hl]
  simp only
  rw [hcut, List.take_left' hlen, List.drop_left' hlen, hone]
  simp [Token.stop]

/-- A name that runs on into a serialized literal. -/
def overlongName (n : Nat) : Text :=
  0x66 :: Fingerprint.serializeToken ⟨.string, 0x22 :: (List.replicate n 0x61 ++ [0x22]), 0⟩

theorem serialize_overlongName {n : Nat} (h : n + 7 = 2 ^ 32) :
    Fingerprint.serialize (Lexer.tokenize "1") (overlongName n) =
      Fingerprint.serialize (Lexer.tokenize (quotedText n)) "f" := by
  have hlen : (overlongName n).length = 1 + 2 ^ 32 := by
    simp [overlongName, Fingerprint.serializeToken, Fingerprint.lengthPrefixed]
    omega
  have hone : Lexer.scan "1" = [⟨.numeric, "1", 0⟩] := by with_unfolding_all rfl
  have hprefix : Fingerprint.lengthPrefixed (overlongName n) =
      Sha256.bigEndian 4 1 ++ overlongName n := by
    rw [Fingerprint.lengthPrefixed, hlen]
    rfl
  rw [Fingerprint.serialize, Fingerprint.serialize, hprefix, Lexer.tokenize, Lexer.tokenize,
    scan_quotedText, hone]
  simp [overlongName, Fingerprint.serializeToken, Fingerprint.lengthPrefixed, Token.eof]
  rfl

/-- A number compiled in the overlong procedure is found for a text that does not compile. -/
theorem overlong_not_transparent {n : Nat} (h : n + 7 = 2 ^ 32) :
    ¬ (calls { scope := .empty .x64 }
      [.setProcedure (overlongName n), .compile "1", .setProcedure "f"]).Transparent
        (quotedText n) := by
  let s : Session := { scope := { DebugScope.empty .x64 with procedure := overlongName n } }
  intro (ht : ((s.compile "1").2.setProcedure "f").Transparent (quotedText n))
  have hd : (s.uncached "1").1.diagnostics = [] := by with_unfolding_all rfl
  have hkey : s.key "1" = Fingerprint.inScope (quotedText n) "f" :=
    congrArg Sha256.hash (serialize_overlongName h)
  have hlookup := lookup_compile (s := s) rfl (show 0 < defaultCacheSize by decide) hd
  rw [hkey] at hlookup
  have hempty := ht.diagnostics
  rw [compile_hit (s := (s.compile "1").2.setProcedure "f") hlookup, hd] at hempty
  have hparse (c : Context) (text literal : Text) (hc : c.maxDepth = 0) :
      (Parser.parse c text [⟨.string, literal, 0⟩, ⟨.numeric, "1", n + 2⟩]).2 =
        [⟨0, .stringLiteral⟩, ⟨n + 2, .unexpectedToken "1"⟩] := by
    have hdepth : c.depthLimit = 256 := by simp [Context.depthLimit, hc, defaultMaxDepth]
    simp only [Parser.parse, hdepth]
    with_unfolding_all rfl
  have hnil := (compile_of_no_diagnostics hempty.symm).1
  rw [scan_quotedText, hparse _ _ _ (by rw [compile_miss rfl, keep_eq]; rfl)] at hnil
  cases hnil

/-- Neither closed scopes nor short names can be done without. -/
theorem cache_not_transparent :
    (¬ ∀ (s : Session) (cs : List Call), s.cache = [] ∧ s.hits = 0 ∧ s.misses = 0 →
      (∀ name ∈ s.scope.procedure :: Call.procedures cs, name.length < 2 ^ 32) →
      (∀ a ∈ Call.keys s.scope.procedure cs, ∀ b ∈ Call.keys s.scope.procedure cs,
        Sha256.hash a = Sha256.hash b → a = b) →
      ∀ before text, cs = before ++ [.compile text] → (s.calls before).Transparent text) ∧
    ¬ ∀ (s : Session) (cs : List Call), s.cache = [] ∧ s.hits = 0 ∧ s.misses = 0 →
      s.scope.Closed →
      (∀ a ∈ Call.keys s.scope.procedure cs, ∀ b ∈ Call.keys s.scope.procedure cs,
        Sha256.hash a = Sha256.hash b → a = b) →
      ∀ before text, cs = before ++ [.compile text] → (s.calls before).Transparent text := by
  have hpair {k k' : List UInt8} (h : k = k') :
      ∀ a ∈ [k, k'], ∀ b ∈ [k, k'], Sha256.hash a = Sha256.hash b → a = b := by
    subst h
    simp
  refine ⟨fun h => ?_, fun h => ?_⟩
  · refine dangling_not_transparent (h { scope := danglingScope }
      [.compile "&z ? y : y", .compile "&z ? y : y"] ⟨rfl, rfl, rfl⟩ ?_ (hpair rfl)
      [.compile "&z ? y : y"] "&z ? y : y" rfl)
    exact List.forall_mem_singleton.2 (by decide)
  · obtain ⟨n, hn⟩ : ∃ n, n + 7 = 2 ^ 32 := ⟨2 ^ 32 - 7, by decide⟩
    refine overlong_not_transparent hn (h { scope := .empty .x64 }
      [.setProcedure (overlongName n), .compile "1", .setProcedure "f", .compile (quotedText n)]
      ⟨rfl, rfl, rfl⟩ ?_ (hpair (serialize_overlongName hn)) _ _ rfl)
    exact ⟨TypeTable.closed_empty _, by simp [DebugScope.empty]⟩

end Session

end WatchExpr
