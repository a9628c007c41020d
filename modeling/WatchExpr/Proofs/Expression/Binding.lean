import WatchExpr.Expression.Resolve

namespace WatchExpr

inductive Binding where
  | localSymbol (sym : Symbol)
  | memberOfThis (this : Symbol)
  | register (offset size : Nat)
  | outerSymbol (base : Base) (mode : Mode) (sym : Symbol)
  | type (k : TypeKey)
  | unknown

namespace Binding

/-- What a name that is bound so is read as at a place. -/
def read (c : Context) (name : Text) (span : Span) : Binding → Except Complaint Expr
  | localSymbol sym => c.localLeaf sym span
  | memberOfThis this =>
    (c.localLeaf this span).map fun leaf => .member span leaf ⟨span, name⟩ true
  | register offset size => Context.registerLeaf name span offset size
  | outerSymbol base mode sym => Context.baseLeaf base mode sym span
  | type k => .ok (.type (.named span name k))
  | unknown => .error (.unknownIdentifier name)

end Binding

namespace Context

/-- What the parts of a context bind a name to; outside the procedure the name can be qualified. -/
inductive Binds (c : Context) (name : Text) : Binding → Prop
  | localSymbol {r : Resolver} {sym : Symbol} (hr : c.resolver = some r)
      (hs : r.localSymbol? name = some sym) : Binds c name (.localSymbol sym)
  | memberOfThis {r : Resolver} {this : Symbol} (hr : c.resolver = some r)
      (hs : r.localSymbol? "this" = some this) : Binds c name (.memberOfThis this)
  | register (offset size : Nat) : Binds c name (.register offset size)
  | globalSymbol {r : Resolver} {qualified : Text} {sym : Symbol} (hr : c.resolver = some r)
      (hs : r.globalSymbol? qualified = some sym) : Binds c name (.outerSymbol .image .address sym)
  | threadLocal {r : Resolver} {qualified : Text} {sym : Symbol} (hr : c.resolver = some r)
      (hs : r.threadLocal? qualified = some sym) : Binds c name (.outerSymbol .thread .address sym)
  | procedure {r : Resolver} {qualified : Text} {sym : Symbol} (hr : c.resolver = some r)
      (hs : r.procedure? qualified = some sym) : Binds c name (.outerSymbol .image .value sym)
  | type {k : TypeKey} (hk : c.typeNamed? name = some k) : Binds c name (.type k)
  | unknown : Binds c name .unknown

variable {c : Context} {name : Text}

variable (c name) in
/-- One of several searches, or none of them, finds something, the same at all places. -/
def Found (search : Span → Option (Except Complaint Expr)) : Prop :=
  (∀ span, search span = none) ∨
    ∃ b : Binding, c.Binds name b ∧ ∀ span, search span = some (b.read c name span)

theorem Found.or {search search' : Span → Option (Except Complaint Expr)}
    (h : c.Found name search) (h' : c.Found name search') :
    c.Found name fun span => (search span).or (search' span) := by
  obtain h | ⟨b, hb, h⟩ := h
  · simpa only [h, Option.none_or] using h'
  · exact .inr ⟨b, hb, fun span => by simp only [h, Option.some_or]⟩

theorem Found.map {α : Type} {found : Option α} (b : α → Binding)
    (hb : ∀ a, found = some a → c.Binds name (b a)) :
    c.Found name fun span => found.map fun a => (b a).read c name span := by
  cases found with
  | none => exact .inl fun _ => rfl
  | some a => exact .inr ⟨b a, hb a rfl, fun _ => rfl⟩

theorem Found.bind {α : Type} {scope : Option α}
    {search : α → Span → Option (Except Complaint Expr)}
    (h : ∀ a, scope = some a → c.Found name (search a)) :
    c.Found name fun span => scope.bind fun a => search a span := by
  cases scope with
  | none => exact .inl fun _ => rfl
  | some a => exact h a rfl

section
variable {r : Resolver} (hr : c.resolver = some r)
include hr

theorem found_memberOfThis : c.Found name fun span => c.memberOfThis? r name span := by
  simp only [memberOfThis?]
  split
  · exact .inl fun _ => rfl
  · split
    · exact .inl fun _ => rfl
    · rename_i this hs
      split
      · exact .inr ⟨.memberOfThis this, .memberOfThis hr hs, fun _ => rfl⟩
      · exact .inl fun _ => rfl

theorem found_outerNamed : c.Found name fun span => outerNamed? r name span := by
  simp only [outerNamed?]
  split
  · rename_i sym hs
    obtain ⟨qualified, -, hs⟩ := List.exists_of_findSome?_eq_some hs
    exact .inr ⟨.outerSymbol .image .address sym, .globalSymbol hr hs, fun _ => rfl⟩
  · split
    · rename_i sym hs
      obtain ⟨qualified, -, hs⟩ := List.exists_of_findSome?_eq_some hs
      exact .inr ⟨.outerSymbol .thread .address sym, .threadLocal hr hs, fun _ => rfl⟩
    · refine .map (fun sym => .outerSymbol .image .value sym) fun sym hs => ?_
      obtain ⟨qualified, -, hs⟩ := List.exists_of_findSome?_eq_some hs
      exact .procedure hr hs

end

theorem found_registerNamed : c.Found name fun span => c.registerNamed? name span := by
  simp only [registerNamed?]
  split
  · rename_i r _
    exact .inr ⟨.register r.offset r.size, .register _ _, fun _ => rfl⟩
  · exact .map (fun a : RegisterAlias => .register a.offset a.size) fun a _ => .register _ _

variable (c name)

theorem exists_binding :
    ∃ b : Binding, c.Binds name b ∧ ∀ span, c.resolve name span = b.read c name span := by
  have hinner : c.Found name fun span => c.resolver.bind fun r =>
      (c.memberOfThis? r name span).or
        ((r.localSymbol? name).map fun sym => c.localLeaf sym span) :=
    .bind fun r hr => (found_memberOfThis hr).or (.map .localSymbol fun _ hs => .localSymbol hr hs)
  have hbound := hinner.or (found_registerNamed.or (.bind fun r hr => found_outerNamed hr))
  simp only [resolve]
  obtain h | ⟨b, hb, h⟩ := hbound
  · simp only [h]
    cases hk : c.typeNamed? name with
    | none => exact ⟨.unknown, .unknown, fun _ => rfl⟩
    | some k => exact ⟨.type k, .type hk, fun _ => rfl⟩
  · exact ⟨b, hb, fun span => by simp only [h]⟩

end Context

end WatchExpr
