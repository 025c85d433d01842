import NominalTypes.Fault

/-!
# Substitution

* `Bindings.add`, `Bindings.resolve`: bind a parameter once, and look a binding up;
* `TypeExpr.substitute`: replace every variable by its binding, the first unbound one being a fault;
* `Bindings.remap`, `Instance.remap`: type arguments written in terms of other parameters, as seen
  from given arguments for those parameters.

A nullable reference gives the nullable form of its binding.  Bounds of variables are not entered.
Empty bindings leave everything as it is, free variables included.
-/

namespace NominalTypes

namespace Bindings

/-- Bind one more parameter, which must be new. -/
def add (b : Bindings) (parameter : String) (type : TypeExpr) : Except Fault Bindings :=
  if b.binds parameter then .error (.duplicateBinding parameter) else .ok (b ++ [(parameter, type)])

theorem add_eq_ok_iff {b c : Bindings} {parameter : String} {type : TypeExpr} :
    b.add parameter type = .ok c ↔ b.binds parameter = false ∧ c = b ++ [(parameter, type)] := by
  unfold add
  cases b.binds parameter
  · simp [eq_comm]
  · simp

/-- The type bound to a parameter that has to be bound. -/
def resolve (b : Bindings) (parameter : String) : Except Fault TypeExpr :=
  match b.type? parameter with
  | some t => .ok t
  | none => .error (.unboundParameter parameter)

end Bindings

namespace TypeExpr

mutual

/-- Replace every variable by its binding, also when there are no bindings at all. -/
def instantiate (σ : Bindings) : TypeExpr → Except Fault TypeExpr
  | inst d args nullable => do return .inst d (← instantiateEach σ args) nullable
  | var name _ nullable => do
    let bound ← σ.resolve name
    return if nullable then bound.toNullable else bound
  | fn params result => do
    let params ← instantiateEach σ params
    return .fn params (← result.instantiate σ)

def instantiateEach (σ : Bindings) :
    List (String × TypeExpr) → Except Fault (List (String × TypeExpr))
  | [] => .ok []
  | (name, t) :: rest => do
    let t ← t.instantiate σ
    return (name, t) :: (← instantiateEach σ rest)

end

def substitute (σ : Bindings) (t : TypeExpr) : Except Fault TypeExpr :=
  if σ.isEmpty then .ok t else t.instantiate σ

@[simp] theorem substitute_nil (t : TypeExpr) : t.substitute [] = .ok t := rfl

theorem substitute_of_ne_nil {σ : Bindings} (h : σ ≠ []) (t : TypeExpr) :
    t.substitute σ = t.instantiate σ := by
  cases σ with
  | nil => exact absurd rfl h
  | cons e rest => rfl

/-- Substitution in each type of a list, in order. -/
def substituteEach (σ : Bindings) (types : List (String × TypeExpr)) :
    Except Fault (List (String × TypeExpr)) :=
  if σ.isEmpty then .ok types else instantiateEach σ types

end TypeExpr

/-- These arguments with the parameters that they mention replaced by what `outer` binds. -/
def Bindings.remap (b outer : Bindings) : Except Fault Bindings := TypeExpr.substituteEach outer b

/-- A type written in terms of a definition's parameters, as seen from arguments for them. -/
def Instance.remap (i : Instance) (outer : Bindings) : Except Fault Instance := do
  return { i with args := ← i.args.remap outer }

end NominalTypes
