import NominalTypes.Definition

/-!
# Type expressions

A property's type, a type argument and an upper bound are all type expressions:

* `inst`: a definition applied to type arguments, possibly nullable;
* `var`: a reference to a type parameter, carrying the upper bound it is known to have;
* `fn`: a function signature, whose parameter names are for the reader only.

`Bindings` is the list of type arguments in the order in which they were bound.  `Instance`,
`Variable` and `Parameter` are the pieces that other modules hand around on their own.
-/

namespace NominalTypes

inductive TypeExpr where
  | inst (definition : Definition) (args : List (String × TypeExpr)) (nullable : Bool)
  | var (name : String) (bound : Option TypeExpr) (nullable : Bool)
  | fn (params : List (String × TypeExpr)) (result : TypeExpr)
  deriving Repr

/-- Type arguments by parameter name, in binding order. -/
abbrev Bindings := List (String × TypeExpr)

/-- A definition with its type arguments: the only kind of type that has members of its own. -/
structure Instance where
  definition : Definition
  args : Bindings
  nullable : Bool
  deriving Repr

/-- One reference to a type parameter. -/
structure Variable where
  name : String
  bound : Option TypeExpr
  nullable : Bool
  deriving Repr

/-- A type parameter as a definition declares it. -/
structure Parameter where
  name : String
  bound : Option TypeExpr
  deriving Repr

namespace Instance

def toExpr (i : Instance) : TypeExpr := .inst i.definition i.args i.nullable

def toNullable (i : Instance) : Instance := { i with nullable := true }

end Instance

namespace Variable

def toExpr (v : Variable) : TypeExpr := .var v.name v.bound v.nullable

/-- A reference fits only a reference to the same parameter, and never widens nullability. -/
def accepts (target source : Variable) : Bool :=
  target.name == source.name && (target.nullable || !source.nullable)

theorem accepts_iff {target source : Variable} :
    target.accepts source = true ↔
      target.name = source.name ∧ (source.nullable = true → target.nullable = true) := by
  cases ht : target.nullable <;> cases hs : source.nullable <;> simp [accepts, ht, hs]

end Variable

/-- A reference to the parameter, with the bound it was declared with. -/
def Parameter.toExpr (p : Parameter) : TypeExpr := .var p.name p.bound false

namespace TypeExpr

/-- A function type is never nullable. -/
def isNullable : TypeExpr → Bool
  | inst _ _ nullable => nullable
  | var _ _ nullable => nullable
  | fn _ _ => false

/-- The nullable form; a function type has none and stays as it is. -/
def toNullable : TypeExpr → TypeExpr
  | inst definition args _ => .inst definition args true
  | var name bound _ => .var name bound true
  | fn params result => .fn params result

def asInstance? : TypeExpr → Option Instance
  | inst definition args nullable => some ⟨definition, args, nullable⟩
  | _ => none

def asVariable? : TypeExpr → Option Variable
  | var name bound nullable => some ⟨name, bound, nullable⟩
  | _ => none

/-- Parameters and result of a function type. -/
def asFunction? : TypeExpr → Option (List (String × TypeExpr) × TypeExpr)
  | fn params result => some (params, result)
  | _ => none

def isFunction (t : TypeExpr) : Bool := t.asFunction?.isSome

def arity? (t : TypeExpr) : Option Nat := t.asFunction?.map (·.1.length)

@[simp] theorem asInstance?_toExpr (i : Instance) : i.toExpr.asInstance? = some i := rfl

@[simp] theorem asVariable?_toExpr (v : Variable) : v.toExpr.asVariable? = some v := rfl

@[simp] theorem toNullable_toNullable (t : TypeExpr) : t.toNullable.toNullable = t.toNullable := by
  cases t <;> rfl

/-- Induction on types: arguments and parameters are met one by one, and a variable without a bound
is a case of its own. -/
@[elab_as_elim, induction_eliminator]
theorem induct {P : TypeExpr → Prop}
    (inst : ∀ d args nullable, (∀ e ∈ args, P e.2) → P (.inst d args nullable))
    (var : ∀ name nullable, P (.var name none nullable))
    (bounded : ∀ name bound nullable, P bound → P (.var name (some bound) nullable))
    (fn : ∀ params result, (∀ e ∈ params, P e.2) → P result → P (.fn params result))
    (t : TypeExpr) : P t :=
  @TypeExpr.rec P (fun types => ∀ e ∈ types, P e.2) (fun bound => ∀ b ∈ bound, P b)
    (fun e => P e.2)
    inst
    (fun name bound nullable h => by
      cases bound with
      | none => exact var name nullable
      | some b => exact bounded name b nullable (h b rfl))
    fn
    (fun _ h => absurd h List.not_mem_nil)
    (fun e rest he hrest f hf => by
      rcases List.mem_cons.mp hf with rfl | hf
      · exact he
      · exact hrest f hf)
    (fun _ h => by cases h)
    (fun b h c hc => by cases hc; exact h)
    (fun _ _ h => h)
    t

end TypeExpr

namespace Bindings

def type? (b : Bindings) (parameter : String) : Option TypeExpr := b.lookup parameter

def binds (b : Bindings) (parameter : String) : Bool := (b.type? parameter).isSome

theorem type?_nil (parameter : String) : type? [] parameter = none := rfl

theorem type?_cons (p : String) (t : TypeExpr) (rest : Bindings) (parameter : String) :
    type? ((p, t) :: rest) parameter = if parameter = p then some t else type? rest parameter := by
  unfold type?
  rw [List.lookup_cons]
  by_cases h : parameter = p
  · simp [h]
  · have hne : (parameter == p) = false := by simp [h]
    rw [hne, if_neg h]

theorem binds_iff {b : Bindings} {parameter : String} :
    b.binds parameter = true ↔ parameter ∈ b.map (·.1) := by
  induction b with
  | nil => simp [binds, type?]
  | cons e rest ih =>
    rw [binds, type?_cons, List.map_cons, List.mem_cons]
    by_cases h : parameter = e.1
    · simp [h]
    · rw [if_neg h, ← binds, ih]
      simp [h]

/-- Bind a parameter anew: its former type is replaced in place, a new parameter comes last. -/
def set (parameter : String) (type : TypeExpr) : Bindings → Bindings
  | [] => [(parameter, type)]
  | (p, t) :: rest =>
    if p == parameter then (p, type) :: rest else (p, t) :: set parameter type rest

theorem type?_set (b : Bindings) (parameter : String) (type : TypeExpr) (p : String) :
    (b.set parameter type).type? p = if p = parameter then some type else b.type? p := by
  induction b with
  | nil => rw [set, type?_cons]
  | cons e rest ih =>
    rw [set]
    by_cases h : e.1 = parameter
    · have heq : (e.1 == parameter) = true := by simp [h]
      rw [heq, if_pos rfl, type?_cons, type?_cons, h]
      split <;> rfl
    · have hne : (e.1 == parameter) = false := by simp [h]
      rw [hne, if_neg Bool.false_ne_true, type?_cons, ih, type?_cons]
      by_cases hp : p = e.1
      · have : p ≠ parameter := fun hq => h (hp.symm.trans hq)
        simp [hp, h]
      · simp [hp]

/-- Bindings from entries in order, where the last type given for a parameter counts. -/
def ofEntries (entries : List (String × TypeExpr)) : Bindings :=
  entries.foldl (fun b e => b.set e.1 e.2) []

end Bindings

end NominalTypes
