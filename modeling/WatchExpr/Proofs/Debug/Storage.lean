import WatchExpr.Proofs.Debug.Engines
import WatchExpr.Proofs.Debug.Tables

namespace WatchExpr

namespace Hex

theorem digit?_eq_some {c : UInt8} (h : Byte.isHexDigit c) :
    ∃ v < 16, digit? c = some v ∧ digitByte v = Byte.toLower c := by
  have hall : ∀ n < 256, Byte.isHexDigit (UInt8.ofNat n) →
      ∃ v < 16, digit? (UInt8.ofNat n) = some v ∧ digitByte v = Byte.toLower (UInt8.ofNat n) := by
    decide +kernel
  have hc := hall c.toNat c.toNat_lt
  rw [UInt8.ofNat_toNat] at hc
  exact hc h

theorem encodeByte_pair {hi lo : Nat} (hhi : hi < 16) (hlo : lo < 16) :
    encodeByte (hi * 16 + lo).toUInt8 = [digitByte hi, digitByte lo] := by
  have hn : (hi * 16 + lo).toUInt8.toNat = hi * 16 + lo := by
    rw [UInt8.toNat_ofNat']
    omega
  have hdiv : (hi * 16 + lo) / 16 = hi := by omega
  have hmod : (hi * 16 + lo) % 16 = lo := by omega
  rw [encodeByte, hn, hdiv, hmod]

/-- Pairs of digits are read, and written again in lower case. -/
theorem decode_digits {t : Text} (hlen : t.length % 2 = 0) (h : ∀ c ∈ t, Byte.isHexDigit c) :
    ∃ bytes, decode t = .ok bytes ∧ encode bytes = Text.toLower t := by
  match t with
  | [] => exact ⟨[], rfl, rfl⟩
  | [c] => simp at hlen
  | c :: d :: rest =>
    obtain ⟨hi, hhi, hc, hci⟩ := digit?_eq_some (h c (by simp))
    obtain ⟨lo, hlo, hd, hdi⟩ := digit?_eq_some (h d (by simp))
    have hrest : rest.length % 2 = 0 := by
      simp only [List.length_cons] at hlen
      omega
    obtain ⟨bytes, hb, he⟩ := decode_digits hrest fun c hc => h c (by simp [hc])
    refine ⟨(hi * 16 + lo).toUInt8 :: bytes, by rw [decode, hc, hd, hb]; rfl, ?_⟩
    rw [encode, List.flatMap_cons, encodeByte_pair hhi hlo, hci, hdi]
    exact congrArg (Byte.toLower c :: Byte.toLower d :: ·) he

end Hex

namespace Engine

theorem map_readMember_memberRows (d : TypeDecl) : (memberRows d).map readMember = d.members := by
  apply List.ext_getElem
  · simp [memberRows]
  · intro i h h'
    simp [memberRows, readMember]

theorem typeName_of_mem_memberRows {d : TypeDecl} {row : MemberRow} (h : row ∈ memberRows d) :
    row.typeName = d.name := by
  obtain ⟨i, hi, rfl⟩ := List.mem_mapIdx.1 h
  rfl

theorem pairwise_memberRows (d : TypeDecl) :
    (memberRows d).Pairwise fun a b => a.ordinal < b.ordinal := by
  rw [List.pairwise_iff_getElem]
  intro i j hi hj hij
  simp only [memberRows, List.getElem_mapIdx]
  exact hij

theorem nodup_ordinals (d : TypeDecl) : ((memberRows d).map (·.ordinal)).Nodup :=
  List.pairwise_map.2 ((pairwise_memberRows d).imp Nat.ne_of_lt)

theorem nodup_keys (d : TypeDecl) : ((memberRows d).map (·.key)).Nodup := by
  apply List.Nodup.of_map Prod.snd
  rw [List.map_map]
  exact nodup_ordinals d

theorem filter_own (d : TypeDecl) :
    (memberRows d).filter (fun row => d.name = row.typeName) = memberRows d := by
  rw [List.filter_eq_self]
  intro row hrow
  simp [typeName_of_mem_memberRows hrow]

theorem filter_other {d other : TypeDecl} (h : d.name ≠ other.name) :
    (memberRows other).filter (fun row => d.name = row.typeName) = [] := by
  rw [List.filter_eq_nil_iff]
  intro row hrow
  simp [typeName_of_mem_memberRows hrow, h]

theorem filter_memberRows {ds : List TypeDecl} (hnames : (ds.map (·.name)).Nodup) {d : TypeDecl}
    (hd : d ∈ ds) : (ds.flatMap memberRows).filter (fun row => d.name = row.typeName) =
      memberRows d := by
  induction ds with
  | nil => cases hd
  | cons x ds ih =>
    obtain ⟨hx, hnames⟩ := List.nodup_cons.1 hnames
    rw [List.flatMap_cons, List.filter_append]
    obtain rfl | hd := List.mem_cons.1 hd
    · have hrest : (ds.flatMap memberRows).filter (fun row => d.name = row.typeName) = [] := by
        rw [List.filter_flatMap, List.flatMap_eq_nil_iff]
        intro y hy
        apply filter_other
        intro he
        exact hx (List.mem_map.2 ⟨y, hy, he.symm⟩)
      rw [filter_own, hrest, List.append_nil]
    · have hne : d.name ≠ x.name := by
        intro he
        exact hx (List.mem_map.2 ⟨d, hd, he⟩)
      rw [filter_other hne, ih hnames hd, List.nil_append]

/-- In the order of the members table, the rows of a type are as they were written. -/
theorem filter_sorted {ds : List TypeDecl} (hnames : (ds.map (·.name)).Nodup) {d : TypeDecl}
    (hd : d ∈ ds) {rows : List MemberRow} (hperm : rows.Perm (ds.flatMap memberRows))
    (hle : rows.Pairwise MemberRow.Le) :
    rows.filter (fun row => d.name = row.typeName) = memberRows d := by
  have hown := hperm.filter (fun row => d.name = row.typeName)
  rw [filter_memberRows hnames hd] at hown
  have hordered : (rows.filter fun row => d.name = row.typeName).Pairwise
      fun a b => a.ordinal ≤ b.ordinal := by
    apply (hle.filter _).imp_of_mem
    intro a b ha hb hab
    have hsame : a.typeName = b.typeName := by
      rw [typeName_of_mem_memberRows (hown.mem_iff.1 ha),
        typeName_of_mem_memberRows (hown.mem_iff.1 hb)]
    obtain hlt | ⟨-, hle⟩ := hab
    · exact absurd (hsame ▸ hlt) (List.lt_irrefl _)
    · exact hle
  apply hown.eq_of_pairwise _ hordered ((pairwise_memberRows d).imp Nat.le_of_lt)
  intro a b ha hb hab hba
  exact List.inj_on_of_nodup_map (nodup_ordinals d) (hown.mem_iff.1 ha) hb (Nat.le_antisymm hab hba)

/-- A type with the members of its rows added, in the order of the rows. -/
def withMembers (rows : List MemberRow) (d : TypeDecl) : TypeDecl :=
  { d with members := d.members ++ (rows.filter fun row => d.name = row.typeName).map readMember }

theorem addMember?_of_not_mem {name : Text} {m : MemberDecl} {ds : List TypeDecl}
    (h : name ∉ ds.map (·.name)) : addMember? name m ds = none := by
  induction ds with
  | nil => rfl
  | cons d ds ih =>
    rw [List.map_cons, List.mem_cons, not_or] at h
    rw [addMember?, ih h.2]
    exact if_neg fun he => h.1 he.symm

/-- A type with one more member if it has a name. -/
def addIfNamed (name : Text) (m : MemberDecl) (d : TypeDecl) : TypeDecl :=
  if d.name = name then { d with members := d.members ++ [m] } else d

theorem name_addIfNamed (name : Text) (m : MemberDecl) (d : TypeDecl) :
    (addIfNamed name m d).name = d.name := by
  rw [addIfNamed]
  split <;> rfl

theorem withMembers_cons (row : MemberRow) (rows : List MemberRow) (d : TypeDecl) :
    withMembers (row :: rows) d =
      withMembers rows (addIfNamed row.typeName (readMember row) d) := by
  by_cases h : d.name = row.typeName
  · simp [withMembers, addIfNamed, h]
  · simp [withMembers, addIfNamed, h]

theorem addMember?_of_mem {name : Text} {m : MemberDecl} {ds : List TypeDecl}
    (hnames : (ds.map (·.name)).Nodup) (h : name ∈ ds.map (·.name)) :
    addMember? name m ds = some (ds.map (addIfNamed name m)) := by
  induction ds with
  | nil => cases h
  | cons d ds ih =>
    obtain ⟨hd, hnames⟩ := List.nodup_cons.1 hnames
    rw [addMember?, List.map_cons, addIfNamed]
    by_cases hmem : name ∈ ds.map (·.name)
    · have hne : d.name ≠ name := by
        rintro rfl
        exact hd hmem
      rw [ih hnames hmem, if_neg hne, if_neg hne]
    · have heq : d.name = name := by
        obtain heq | hin := List.mem_cons.1 h
        · exact heq.symm
        · exact absurd hin hmem
      have hrest : ds.map (addIfNamed name m) = ds := by
        refine (List.map_congr_left ?_).trans (List.map_id ds)
        intro d' hd'
        apply if_neg
        rintro rfl
        exact hmem (List.mem_map_of_mem hd')
      rw [addMember?_of_not_mem hmem, if_pos heq, if_pos heq, hrest]

theorem attachMembers {rows : List MemberRow} {ds : List TypeDecl}
    (hnames : (ds.map (·.name)).Nodup) (h : ∀ row ∈ rows, row.typeName ∈ ds.map (·.name)) :
    rows.foldlM attachMember ds = .ok (ds.map (withMembers rows)) := by
  induction rows generalizing ds with
  | nil =>
    have hid : withMembers [] = id := by
      funext d
      simp [withMembers]
    rw [hid, List.map_id]
    rfl
  | cons row rows ih =>
    obtain ⟨hrow, hrows⟩ := List.forall_mem_cons.1 h
    have hadd : attachMember ds row =
        .ok (ds.map (addIfNamed row.typeName (readMember row))) := by
      rw [attachMember, addMember?_of_mem hnames hrow]
    have hsame : (ds.map (addIfNamed row.typeName (readMember row))).map (·.name) =
        ds.map (·.name) := by
      rw [List.map_map]
      apply List.map_congr_left
      intro d hd
      exact name_addIfNamed _ _ d
    rw [List.foldlM_cons, hadd]
    refine (ih (hsame ▸ hnames) (hsame ▸ hrows)).trans ?_
    rw [List.map_map]
    congr 1
    apply List.map_congr_left
    intro d hd
    exact (withMembers_cons row rows d).symm

/-- Every type gets back exactly its own members. -/
theorem attach_sorted {ds : List TypeDecl} (hnames : (ds.map (·.name)).Nodup)
    {rows : List MemberRow} (hperm : rows.Perm (ds.flatMap memberRows))
    (hle : rows.Pairwise MemberRow.Le) :
    rows.foldlM attachMember ((ds.map typeRow).map readType) = .ok ds := by
  have hkept : ((ds.map typeRow).map readType).map (·.name) = ds.map (·.name) := by
    simp [typeRow, readType]
  rw [attachMembers (hkept ▸ hnames), List.map_map, List.map_map]
  · congr 1
    refine (List.map_congr_left ?_).trans (List.map_id ds)
    intro d hd
    have hmembers := map_readMember_memberRows d
    rw [← filter_sorted hnames hd hperm hle] at hmembers
    simp [withMembers, readType, typeRow, hmembers]
  · intro row hrow
    obtain ⟨d, hd, hrow⟩ := List.mem_flatMap.1 (hperm.mem_iff.1 hrow)
    rw [hkept, typeName_of_mem_memberRows hrow]
    exact List.mem_map_of_mem hd

def codeOf (d : SymbolDecl) : List UInt8 := (Hex.decode d.code).toOption.getD []

theorem readSymbol_symbolRow {d : SymbolDecl} (hlen : d.code.length % 2 = 0)
    (hcode : ∀ c ∈ d.code, Byte.isHexDigit c) :
    readSymbol (symbolRow d (codeOf d)) = { d with code := Text.toLower d.code } := by
  obtain ⟨code, hdecode, hencode⟩ := Hex.decode_digits hlen hcode
  simp only [readSymbol, symbolRow, codeOf, hdecode, ← hencode]
  rfl

/-- What the tables hold once some declarations are written. -/
structure Written (c : Contents) (arch procedure : Text) (types : List TypeDecl)
    (symbols : List SymbolDecl) : Prop where
  hasArch : c.setting "arch" = some arch
  hasProcedure : c.setting "procedure" = some procedure
  hasTypes : Numbered c.types (types.map typeRow)
  hasMembers : c.members = types.flatMap memberRows
  hasSymbols : Numbered c.symbols (symbols.map fun d => symbolRow d (codeOf d))

theorem Written.settings (arch procedure : Text) :
    Written { setting := Function.update (Function.update (fun _ => none) ("arch" : Text)
      (some arch)) ("procedure" : Text) (some procedure) } arch procedure [] [] :=
  ⟨rfl, rfl, .nil, rfl, .nil⟩

section
variable {σ : Type} {engine : Engine σ} {contents : σ → Option Contents}
  (hengine : engine.Faithful contents) {s : σ} {c : Contents} {arch procedure : Text}
  {types : List TypeDecl} {symbols : List SymbolDecl}
include hengine

theorem succeeds_writeMembers {rows : List MemberRow} (hc : contents s = some c)
    (hnodup : (rows.map (·.key)).Nodup) (hnew : ∀ r ∈ c.members, ∀ row ∈ rows, r.key ≠ row.key) :
    Succeeds contents (rows.forM (writeMember engine)) s fun _ c' =>
      c' = { c with members := rows + c.members } := by
  induction rows generalizing s c with
  | nil => exact .pure hc (by simp)
  | cons row rows ih =>
    obtain ⟨hrow, hnodup⟩ := List.nodup_cons.1 hnodup
    have hinsert := hengine.insertMember s c row hc fun r hr => hnew r hr row List.mem_cons_self
    rw [List.forM]
    apply (hinsert.adapt _).bind
    rintro - s' c' hc' rfl
    refine (ih hc' hnodup ?_).imp ?_
    · intro r hr other hother
      obtain rfl | hr := Multiset.mem_cons.1 hr
      · intro he
        exact hrow (List.mem_map.2 ⟨other, hother, he.symm⟩)
      · exact hnew r hr other (List.mem_cons_of_mem _ hother)
    · rintro - c'' rfl
      rw [Multiset.add_cons, ← Multiset.cons_coe, Multiset.cons_add]

/-- One more type is written with its members, whose rows are new as its name is. -/
theorem succeeds_writeType {d : TypeDecl} (hc : contents s = some c)
    (h : Written c arch procedure types symbols) (hd : d.name ∉ types.map (·.name)) :
    Succeeds contents (writeType engine d) s fun _ c' =>
      Written c' arch procedure (types ++ [d]) symbols := by
  have hname : ∀ r ∈ c.types, r.2.name ≠ (typeRow d).name := by
    intro r hr he
    obtain ⟨d', hd', hrow⟩ := List.mem_map.1 (h.hasTypes.mem_iff.1 ⟨r.1, hr⟩)
    rw [← hrow] at he
    exact hd (List.mem_map.2 ⟨d', hd', he⟩)
  apply ((hengine.insertType s c _ hc hname).adapt _).bind
  rintro - s' c' hc' ⟨n, hn, rfl⟩
  refine (succeeds_writeMembers hengine hc' (nodup_keys d) ?_).imp ?_
  · intro r hr row hrow he
    rw [h.hasMembers, Multiset.mem_coe] at hr
    obtain ⟨d', hd', hr⟩ := List.mem_flatMap.1 hr
    have hsame := congrArg Prod.fst he
    simp only [MemberRow.key] at hsame
    rw [typeName_of_mem_memberRows hr, typeName_of_mem_memberRows hrow] at hsame
    exact hd (List.mem_map.2 ⟨d', hd', hsame⟩)
  · rintro - c'' rfl
    refine ⟨h.hasArch, h.hasProcedure, ?_, ?_, h.hasSymbols⟩
    · rw [List.map_append]
      exact h.hasTypes.insert hn _
    · simp only [h.hasMembers, List.flatMap_append, List.flatMap_singleton, Multiset.coe_add,
        Multiset.coe_eq_coe]
      exact List.perm_append_comm

theorem succeeds_writeTypes {more : List TypeDecl} (hc : contents s = some c)
    (h : Written c arch procedure types symbols)
    (hnames : ((types ++ more).map (·.name)).Nodup) :
    Succeeds contents (more.forM (writeType engine)) s fun _ c' =>
      Written c' arch procedure (types ++ more) symbols := by
  induction more generalizing s c types with
  | nil =>
    rw [List.append_nil]
    exact .pure hc h
  | cons d more ih =>
    have hd : d.name ∉ types.map (·.name) := by
      rw [List.map_append, List.nodup_append] at hnames
      intro hm
      exact hnames.2.2 _ hm _ (by simp) rfl
    rw [List.forM]
    apply (succeeds_writeType hengine hc h hd).bind
    intro _ s' c' hc' h'
    rw [List.append_cons] at hnames ⊢
    exact ih hc' h' hnames

theorem succeeds_writeSymbol {d : SymbolDecl} (hc : contents s = some c)
    (h : Written c arch procedure types symbols) (hd : ∃ code, Hex.decode d.code = .ok code) :
    Succeeds contents (writeSymbol engine d) s fun _ c' =>
      Written c' arch procedure types (symbols ++ [d]) := by
  obtain ⟨code, hcode⟩ := hd
  have hrow : codeOf d = code := by
    rw [codeOf, hcode]
    rfl
  rw [writeSymbol, hcode]
  refine ((hengine.insertSymbol s c _ hc).adapt _).imp ?_
  rintro - c' ⟨n, hn, rfl⟩
  refine ⟨h.hasArch, h.hasProcedure, h.hasTypes, h.hasMembers, ?_⟩
  rw [List.map_append, ← hrow]
  exact h.hasSymbols.insert hn _

theorem succeeds_writeSymbols {more : List SymbolDecl} (hc : contents s = some c)
    (h : Written c arch procedure types symbols)
    (hcodes : ∀ d ∈ more, ∃ code, Hex.decode d.code = .ok code) :
    Succeeds contents (more.forM (writeSymbol engine)) s fun _ c' =>
      Written c' arch procedure types (symbols ++ more) := by
  induction more generalizing s c symbols with
  | nil =>
    rw [List.append_nil]
    exact .pure hc h
  | cons d more ih =>
    obtain ⟨hd, hcodes⟩ := List.forall_mem_cons.1 hcodes
    rw [List.forM]
    apply (succeeds_writeSymbol hengine hc h hd).bind
    intro _ s' c' hc' h'
    rw [List.append_cons]
    exact ih hc' h' hcodes

variable {info : DebugInfo}

theorem succeeds_writeRows (hc : contents s = some {}) (hnames : (info.types.map (·.name)).Nodup)
    (hcodes : ∀ d ∈ info.symbols, ∃ code, Hex.decode d.code = .ok code) :
    Succeeds contents (writeRows engine info) s fun _ c =>
      Written c info.arch info.procedure info.types info.symbols := by
  apply ((hengine.replaceSetting s {} _ _ hc).adapt _).bind
  rintro - s₁ c₁ hc₁ rfl
  apply ((hengine.replaceSetting s₁ _ _ _ hc₁).adapt _).bind
  rintro - s₂ c₂ hc₂ rfl
  apply (succeeds_writeTypes hengine hc₂ (.settings _ _) hnames).bind
  intro _ s₃ c₃ hc₃ h₃
  exact succeeds_writeSymbols hengine hc₃ h₃ hcodes

theorem succeeds_write (hs : (contents s).getD {} = {}) (hnames : (info.types.map (·.name)).Nodup)
    (hcodes : ∀ d ∈ info.symbols, ∃ code, Hex.decode d.code = .ok code) :
    Succeeds contents (write engine info) s fun _ c =>
      Written c info.arch info.procedure info.types info.symbols := by
  apply ((hengine.createTables s).adapt _).bind
  rintro - s₁ c₁ hc₁ rfl
  rw [hs] at hc₁
  apply ((hengine.begin s₁ _ hc₁).adapt _).bind
  rintro - s₂ c₂ hc₂ rfl
  apply ((succeeds_writeRows hengine hc₂ hnames hcodes).tryCatch _).bind
  intro _ s₃ c₃ hc₃ h₃
  refine ((hengine.commit s₃ c₃ hc₃).adapt _).imp ?_
  rintro - c₄ rfl
  exact h₃

theorem succeeds_read (hc : contents s = some c) (h : Written c arch procedure types symbols)
    (hnames : (types.map (·.name)).Nodup)
    (hcodes : ∀ d ∈ symbols, d.code.length % 2 = 0 ∧ ∀ c ∈ d.code, Byte.isHexDigit c) :
    Succeeds contents (read engine) s fun info _ => info =
      { arch, procedure, types
        symbols := symbols.map fun d => { d with code := Text.toLower d.code } } := by
  apply ((hengine.selectSetting s c _ hc).adapt _).bind
  rintro value s₁ c₁ hc₁ ⟨rfl, rfl⟩
  apply ((hengine.selectSetting s₁ _ _ hc₁).adapt _).bind
  rintro value s₂ c₂ hc₂ ⟨rfl, rfl⟩
  apply ((hengine.selectTypes s₂ _ hc₂).adapt _).bind
  rintro typeRows s₃ c₃ hc₃ ⟨rfl, numbered, rfl, hnumbered, hsorted⟩
  apply ((hengine.selectMembers s₃ _ hc₃).adapt _).bind
  rintro rows s₄ c₄ hc₄ ⟨rfl, hrows, hle⟩
  rw [h.hasMembers, Multiset.coe_eq_coe] at hrows
  rw [h.hasTypes.select hnumbered hsorted, attach_sorted hnames hrows hle]
  apply ((hengine.selectSymbols s₄ _ hc₄).adapt _).bind
  rintro symbolRows s₅ c₅ hc₅ ⟨rfl, numbered', rfl, hnumbered', hsorted'⟩
  have hsymbols : (symbols.map fun d => symbolRow d (codeOf d)).map readSymbol =
      symbols.map fun d => { d with code := Text.toLower d.code } := by
    rw [List.map_map]
    apply List.map_congr_left
    intro d hd
    exact readSymbol_symbolRow (hcodes d hd).1 (hcodes d hd).2
  rw [h.hasArch, h.hasProcedure, h.hasSymbols.select hnumbered' hsorted', hsymbols]
  exact .pure hc₅ rfl

/-- Declarations with distinct type names and with codes in pairs of hexadecimal digits can be
stored in an empty database, and are read from it as they were: the types and symbols in their
order, each type with its own members, and the codes in lower case. -/
theorem read_write (db : σ) (hdb : (contents db).getD {} = {}) (info : DebugInfo)
    (hnames : (info.types.map (·.name)).Nodup)
    (hcodes : ∀ d ∈ info.symbols, d.code.length % 2 = 0 ∧ ∀ c ∈ d.code, Byte.isHexDigit c) :
    ∃ written, engine.write info db = .ok () written ∧
      ∃ after, engine.read written = .ok { info with
        symbols := info.symbols.map fun d => { d with code := Text.toLower d.code } } after := by
  have hdecode : ∀ d ∈ info.symbols, ∃ code, Hex.decode d.code = .ok code := by
    intro d hd
    obtain ⟨code, hcode, -⟩ := Hex.decode_digits (hcodes d hd).1 (hcodes d hd).2
    exact ⟨code, hcode⟩
  obtain ⟨_, written, c, hwrite, hc, h⟩ := succeeds_write hengine hdb hnames hdecode
  obtain ⟨stored, after, _, hread, _, rfl⟩ := succeeds_read hengine hc h hnames hcodes
  exact ⟨written, hwrite, after, hread⟩

end

/-- Two records whose names are not in byte order, offsets at the end of their range, a global that
is declared twice and a code in mixed case. -/
def listInfo : DebugInfo where
  arch := "x64"
  procedure := "main"
  types :=
    [{ name := "Node", kind := "struct", size := 0xffffffffffffffff,
       members := [⟨"next", "Node*", 0⟩, ⟨"link", "Link", 0xfffffffffffffff7⟩] },
      { name := "Link", kind := "union", size := 8, members := [⟨"to", "Node*", 0⟩] }]
  symbols :=
    [{ scope := "global", name := "head", type := "Node*", offset := 8 },
      { scope := "global", name := "head", type := "Node*", offset := -16 },
      { name := "x", type := "int", location := "addr-bytecode", code := "0A2a" }]

theorem read_write_list :
    Connection.engine.Faithful Connection.contents ∧
    (Connection.contents {}).getD {} = {} ∧ (listInfo.types.map (·.name)).Nodup ∧
    (∀ d ∈ listInfo.symbols, d.code.length % 2 = 0 ∧ ∀ c ∈ d.code, Byte.isHexDigit c) ∧
    (∃ written, Connection.engine.write listInfo {} = .ok () written ∧
      ∃ after, Connection.engine.read written = .ok { listInfo with
        symbols := listInfo.symbols.map fun d => { d with code := Text.toLower d.code } } after) ∧
    listInfo.symbols.map (fun d => Text.toLower d.code) = [[], [], "0a2a"] := by
  have hnames : (listInfo.types.map (·.name)).Nodup := by decide
  have hcodes : ∀ d ∈ listInfo.symbols,
      d.code.length % 2 = 0 ∧ ∀ c ∈ d.code, Byte.isHexDigit c := by decide +kernel
  exact ⟨Connection.faithful, rfl, hnames, hcodes,
    read_write Connection.faithful {} rfl listInfo hnames hcodes, by decide +kernel⟩

end Engine

end WatchExpr
