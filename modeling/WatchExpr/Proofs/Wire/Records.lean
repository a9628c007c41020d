import Mathlib.Algebra.Ring.Nat
import WatchExpr.Text.Utf8
import WatchExpr.Wire.Record

namespace WatchExpr

namespace FieldType

/-- Blocks have their size, and the lengths of strings fit a signed word. -/
def Admits : (t : FieldType) → t.Value → Prop
  | byte, _ => True
  | block size, (b : List UInt8) => b.length = size ∧ size < 2 ^ 63
  | text, (t : Text) => t.length < 2 ^ 63
  | bytes, (b : Option (List UInt8)) => (b.getD []).length < 2 ^ 63
  | flag, _ => True

def IsValid : (t : FieldType) → t.Value → Prop
  | text, (t : Text) => Utf8.isValid t
  | _, _ => True

/-- The data items that a field takes, with what they give. -/
inductive Reads : (t : FieldType) → FieldItem → t.Value → Prop
  | byte (b : UInt8) : Reads .byte (.unsigned b.toUInt64) b
  | block {size : Nat} {b : List UInt8} (h : b.length = size) : Reads (.block size) (.bytes b) b
  | text {t : Text} (h : Utf8.isValid t) : Reads .text (.text t) t
  | bytes (b : List UInt8) : Reads .bytes (.bytes b) (some b)
  | null : Reads .bytes .null none
  | flag (b : Bool) : Reads .flag (.flag b) b

variable {t : FieldType} {v : t.Value}

theorem reads_item (ha : t.Admits v) (h : t.IsValid v) : t.Reads (t.item v) v := by
  cases t with
  | byte => exact .byte v
  | block => exact .block ha.1
  | text => exact .text h
  | bytes =>
    cases v with
    | none => exact .null
    | some b => exact .bytes b
  | flag => exact .flag v

/-- What is left out when it is empty is the zero value, except for bytes, which may be empty or
absent. -/
theorem eq_zero_of_isEmpty (ht : t = .text ∨ t = .flag) (h : t.isEmpty v) : v = t.zero := by
  obtain rfl | rfl := ht
  · exact List.isEmpty_iff.1 h
  · exact Bool.not_eq_true' v ▸ h

end FieldType

namespace RecordField

def All (P : (f : RecordField) → f.type.Value → Prop) : (fs : List RecordField) → Values fs → Prop
  | [], _ => True
  | f :: fs, (v, vs) => P f v ∧ All P fs vs

/-- A field is filled from the item under its number, and keeps its zero value without one. -/
def Fills (items : List (Nat × FieldItem)) (f : RecordField) (v : f.type.Value) : Prop :=
  f.number ∉ items.map Prod.fst ∧ v = f.type.zero ∨ ∃ x, (f.number, x) ∈ items ∧ f.type.Reads x v

variable {fs : List RecordField} {vs : Values fs}

theorem All.imp {P Q : (f : RecordField) → f.type.Value → Prop} (h : All P fs vs)
    (hi : ∀ f ∈ fs, ∀ v, P f v → Q f v) : All Q fs vs := by
  induction fs with
  | nil => trivial
  | cons f fs ih =>
    obtain ⟨hf, hfs⟩ := List.forall_mem_cons.1 hi
    exact ⟨hf _ h.1, ih h.2 hfs⟩

theorem Fills.append {items front : List (Nat × FieldItem)} {f : RecordField} {v : f.type.Value}
    (h : Fills items f v) (hf : f.number ∉ front.map Prod.fst) : Fills (front ++ items) f v := by
  obtain ⟨hn, hv⟩ | ⟨x, hx, hv⟩ := h
  · left
    rw [List.map_append, List.mem_append, not_or]
    exact ⟨⟨hf, hn⟩, hv⟩
  · exact .inr ⟨x, List.mem_append_right _ hx, hv⟩

theorem sublist_items (fs : List RecordField) (vs : Values fs) :
    ((items fs vs).map Prod.fst).Sublist (fs.map (·.number)) := by
  induction fs with
  | nil => exact .slnil
  | cons f fs ih =>
    obtain ⟨v, vs⟩ := vs
    rw [items]
    cases f.item? v with
    | none => exact (ih vs).cons _
    | some x => exact (ih vs).cons_cons _

/-- A record is filled from its own items: what was left out has its zero value. -/
theorem fills_items (hnodup : (fs.map (·.number)).Nodup)
    (homit : ∀ f ∈ fs, f.omitEmpty → f.type = .text ∨ f.type = .flag)
    (hadmits : All (fun f => f.type.Admits) fs vs) (hvalid : All (fun f => f.type.IsValid) fs vs) :
    All (Fills (items fs vs)) fs vs := by
  induction fs with
  | nil => trivial
  | cons f fs ih =>
    obtain ⟨v, vs⟩ := vs
    obtain ⟨hnew, hnodup⟩ := List.nodup_cons.1 hnodup
    obtain ⟨hf, homit⟩ := List.forall_mem_cons.1 homit
    have hnot : f.number ∉ (items fs vs).map Prod.fst := fun hm =>
      hnew ((sublist_items fs vs).subset hm)
    have hrest := ih hnodup homit hadmits.2 hvalid.2
    rw [items, item?]
    split
    · rename_i h
      rw [Bool.and_eq_true] at h
      exact ⟨.inl ⟨hnot, FieldType.eq_zero_of_isEmpty (hf h.1) h.2⟩, hrest⟩
    · refine ⟨.inr ⟨_, List.mem_cons_self, FieldType.reads_item hadmits.1 hvalid.1⟩, ?_⟩
      apply hrest.imp
      intro g hg w hw
      apply hw.append
      intro hm
      rw [Option.map_some, Option.toList_some, List.map_singleton, List.mem_singleton] at hm
      exact hnew (List.mem_map.2 ⟨g, hg, hm⟩)

end RecordField

open RecordField

/-- What is assumed of the library that records are stored with. The fields that are not left out
are stored as a map of data items in one encoding, which is nowhere looked into; and from the
encoding of a map every field is filled by its own item, whatever other fields there are. -/
structure RecordCoder.Canonical (coder : RecordCoder) (r : RecordType)
    (encoding : List (Nat × FieldItem) → List UInt8) : Prop where
  marshal_eq : ∀ vs, All (fun f => f.type.Admits) r.fields vs →
    coder.marshal r vs = .ok (encoding (items r.fields vs))
  unmarshal_eq : ∀ entries vs, (entries.map Prod.fst).Sublist (r.fields.map (·.number)) →
    All (fun f => f.type.Admits) r.fields vs → All (Fills entries) r.fields vs →
      coder.unmarshal r (encoding entries) = .ok vs

theorem RecordCoder.Canonical.unmarshal_marshal {coder : RecordCoder} {r : RecordType}
    {encoding : List (Nat × FieldItem) → List UInt8} (h : coder.Canonical r encoding)
    (hnodup : (r.fields.map (·.number)).Nodup)
    (homit : ∀ f ∈ r.fields, f.omitEmpty → f.type = .text ∨ f.type = .flag)
    {vs : Values r.fields} (hadmits : All (fun f => f.type.Admits) r.fields vs)
    (hvalid : All (fun f => f.type.IsValid) r.fields vs) :
    ∃ data, coder.marshal r vs = .ok data ∧ coder.unmarshal r data = .ok vs :=
  ⟨_, h.marshal_eq vs hadmits, h.unmarshal_eq _ vs (sublist_items _ _) hadmits
    (fills_items hnodup homit hadmits hvalid)⟩

end WatchExpr
