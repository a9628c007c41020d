import WatchExpr.Wire.Program
import WatchExpr.Proofs.Cbor.Records
import WatchExpr.Proofs.Lexical.Serialization

namespace WatchExpr

theorem Sha256.length_hash (message : List UInt8) : (hash message).length = 32 := by
  simp [hash, wordBytes]

namespace Program

/-- Programs whose texts are valid and whose lengths fit a signed word. -/
structure Storable (p : Program) : Prop where
  hash : p.hash.length = 32
  valid : ∀ t ∈ [p.source, p.scope, p.arch, p.type], Utf8.isValid t
  short : ∀ t ∈ [p.source, p.scope, p.arch, p.type, p.code.getD []], t.length < 2 ^ 63

variable {p : Program} {coder : RecordCoder} {encoding : List (Nat × FieldItem) → List UInt8}

theorem Storable.admits (h : p.Storable) :
    RecordField.All (fun f => f.type.Admits) recordType.fields p.values := by
  have hshort := h.short
  simp only [List.forall_mem_cons] at hshort
  obtain ⟨hsource, hscope, harch, htype, hcode, -⟩ := hshort
  exact ⟨trivial, ⟨h.hash, by decide⟩, hsource, hscope, harch, hcode, htype, trivial, trivial⟩

theorem Storable.isValid (h : p.Storable) :
    RecordField.All (fun f => f.type.IsValid) recordType.fields p.values := by
  have hvalid := h.valid
  simp only [List.forall_mem_cons] at hvalid
  obtain ⟨hsource, hscope, harch, htype, -⟩ := hvalid
  exact ⟨trivial, trivial, hsource, hscope, harch, trivial, htype, trivial, trivial⟩

theorem Storable.unmarshal_marshal (hcoder : coder.Canonical recordType encoding) (h : p.Storable)
    (hv : p.version = currentVersion) :
    ∃ data, p.marshal coder = .ok data ∧ unmarshal coder data = .ok p := by
  obtain ⟨data, hdata, hread⟩ :=
    hcoder.unmarshal_marshal (by decide) (by decide) h.admits h.isValid
  refine ⟨data, hdata, ?_⟩
  simp only [unmarshal, hread, Except.mapError, bind, Except.bind]
  exact if_pos hv

theorem checkHash_eq_ok : p.checkHash = .ok () ↔ p.hash = Fingerprint.inScope p.source p.scope := by
  simp only [checkHash]
  split <;> simp [*]

theorem checkCode_eq_ok {c : Compiled} : p.checkCode c = .ok () ↔
    p.code.getD [] = (if p.isValue then c.valueCode else c.code).getD [] := by
  simp only [checkCode, eq_comm (a := p.code.getD [])]
  by_cases h : (if p.isValue then c.valueCode else c.code).getD [] = p.code.getD []
  · rw [if_pos h]
    exact iff_of_true rfl h
  · rw [if_neg h]
    exact iff_of_false nofun h

/-- The check passes for the programs with the fingerprint of their source and with the code that
the source compiles to: that of the value or that of the address, as the program says. -/
theorem verify_eq_ok {compile : Text → Except Text Compiled} : p.verify compile = .ok () ↔
    p.hash = Fingerprint.inScope p.source p.scope ∧ ∃ c, compile p.source = .ok c ∧
      p.code.getD [] = (if p.isValue then c.valueCode else c.code).getD [] := by
  rw [← checkHash_eq_ok]
  simp only [verify, ← checkCode_eq_ok]
  cases p.checkHash with
  | error e => simp [bind, Except.bind]
  | ok u =>
    cases hc : compile p.source with
    | error e => simp [bind, Except.bind, Except.mapError]
    | ok c => simp [bind, Except.bind, Except.mapError]

section
variable {c : Compiled} {scope type : Text} {arch : Arch}

theorem ofCompiled_eq_ok (scope : Text) (arch : Arch) (type : Text) (hok : c.ok) :
    ofCompiled c scope arch type = .ok
    { version := currentVersion, hash := Fingerprint.inScope c.text scope, source := c.text,
      scope, arch := arch.name, code := c.valueCode.or c.code, type,
      isValue := c.valueCode.isSome } := by
  rw [ofCompiled, if_pos hok]

theorem storable_ofCompiled (hok : c.ok) (h : ofCompiled c scope arch type = .ok p)
    (hvalid : ∀ t ∈ [c.text, scope, type], Utf8.isValid t)
    (hshort : ∀ t ∈ [c.text, scope, type, c.code.getD [], c.valueCode.getD []],
      t.length < 2 ^ 63) : p.Storable := by
  have harch : Utf8.isValid arch.name ∧ arch.name.length < 2 ^ 63 := by
    cases arch <;> decide +kernel
  have hcode : ((c.valueCode.or c.code).getD []).length < 2 ^ 63 := by
    cases hc : c.valueCode with
    | none => exact hshort _ (by simp)
    | some code => exact hshort code (by simp [hc])
  rw [ofCompiled_eq_ok scope arch type hok] at h
  cases h
  simp only [List.forall_mem_cons] at hvalid hshort
  obtain ⟨hsource, hscope, htype, -⟩ := hvalid
  obtain ⟨hsource', hscope', htype', -⟩ := hshort
  refine ⟨Sha256.length_hash _, ?_, ?_⟩
  · simp only [List.forall_mem_cons]
    exact ⟨hsource, hscope, harch.1, htype, List.forall_mem_nil _⟩
  · simp only [List.forall_mem_cons]
    exact ⟨hsource', hscope', harch.2, htype', hcode, List.forall_mem_nil _⟩

end

/-- Programs can be stored and checked. The program of a compilation is read back with all its
fields and passes the check against the compilation; the texts are valid and all lengths fit a
signed word, as the lengths of strings do. A program that passes the check has the fingerprint of
its source, and its code is the one that the compiler gave for the source. -/
theorem stored_and_checked (hcoder : coder.Canonical recordType encoding) :
    (∀ (c : Compiled) (scope : Text) (arch : Arch) (type : Text), c.ok →
      (∀ t ∈ [c.text, scope, type], Utf8.isValid t) →
      (∀ t ∈ [c.text, scope, type, c.code.getD [], c.valueCode.getD []], t.length < 2 ^ 63) →
      ∃ p data, ofCompiled c scope arch type = .ok p ∧ p.marshal coder = .ok data ∧
        unmarshal coder data = .ok p ∧
          ∀ compile, compile p.source = .ok c → p.verify compile = .ok ()) ∧
    ∀ (p : Program) (compile : Text → Except Text Compiled), p.verify compile = .ok () →
      p.hash = Fingerprint.inScope p.source p.scope ∧ ∃ c, compile p.source = .ok c ∧
        p.code.getD [] = (if p.isValue then c.valueCode else c.code).getD [] := by
  constructor
  · intro c scope arch type hok hvalid hshort
    have hp := ofCompiled_eq_ok scope arch type hok
    obtain ⟨data, hdata, hread⟩ :=
      (storable_ofCompiled hok hp hvalid hshort).unmarshal_marshal hcoder rfl
    refine ⟨_, data, hp, hdata, hread, ?_⟩
    intro compile hcompile
    rw [verify_eq_ok]
    refine ⟨rfl, c, hcompile, ?_⟩
    cases c.valueCode <;> rfl
  · intro p compile h
    exact verify_eq_ok.1 h

def product : Compiled := (compile (.bare .x64) "6 * 7").1

theorem product_stored_and_checked :
    Cbor.recordCoder.Canonical recordType (fun items => (Cbor.Item.ofItems items).write) ∧
      product.ok ∧ (∀ t ∈ [product.text, [], "int32"], Utf8.isValid t) ∧
      (∀ t ∈ [product.text, [], "int32", product.code.getD [], product.valueCode.getD []],
        t.length < 2 ^ 63) ∧
      ∃ p data, ofCompiled product [] .x64 "int32" = .ok p ∧
        p.marshal Cbor.recordCoder = .ok data ∧ unmarshal Cbor.recordCoder data = .ok p ∧
        p.verify (fun _ => .ok product) = .ok () ∧
        p.hash = Fingerprint.inScope p.source p.scope ∧
        p.code.getD [] = product.valueCode.getD [] := by
  have hcoder : Cbor.recordCoder.Canonical recordType
      (fun items => (Cbor.Item.ofItems items).write) :=
    Cbor.canonical_recordCoder (by decide) (by decide) (by decide)
  have hok : product.ok := by decide +kernel
  have hvalid : ∀ t ∈ [product.text, [], "int32"], Utf8.isValid t := by decide +kernel
  have hshort : ∀ t ∈ [product.text, [], "int32", product.code.getD [],
      product.valueCode.getD []], t.length < 2 ^ 63 := by decide +kernel
  have hvalue : product.valueCode.isSome := by decide +kernel
  obtain ⟨p, data, hp, hdata, hread, hverify⟩ :=
    (stored_and_checked hcoder).1 product [] .x64 "int32" hok hvalid hshort
  have hpass := hverify (fun _ => .ok product) rfl
  obtain ⟨hhash, c, hc, hcode⟩ := (stored_and_checked hcoder).2 p _ hpass
  cases hc
  have hisValue : p.isValue = true := by
    rw [ofCompiled_eq_ok [] .x64 "int32" hok] at hp
    cases hp
    exact hvalue
  rw [if_pos hisValue] at hcode
  exact ⟨hcoder, hok, hvalid, hshort, p, data, hp, hdata, hread, hpass, hhash, hcode⟩

end Program

end WatchExpr
