import NominalTypes.Proofs.Assignability
import NominalTypes.Proofs.Replay

/-!
# Nullability and assignability

Nullability is tested at each level of the search, at each reference on the way through bounds, and
between two references.  The tests come to one rule: a type that is not nullable takes nothing that
is.

* `TypeExpr.upwards`: a type and the chain of upper bounds above it, and
  `Universe.isNullable_of_instanceAccepts`: an accepted chain has no nullable part;
* `Universe.acceptsFrom_toNullable_ne_false`: a nullable target opens branches of the search that
  were cut off before, and closes none;
* `Universe.acceptsFrom_of_nullable`: to a nullable target nullability of the source is all one;
* `Universe.acceptsExpr_nullability`: the three for all type expressions.
-/

namespace NominalTypes

/-- The type itself, then its upper bound, the upper bound of that, and so on. -/
def TypeExpr.upwards : TypeExpr → List TypeExpr
  | .inst d args nullable => [.inst d args nullable]
  | .var name none nullable => [.var name none nullable]
  | .var name (some bound) nullable => .var name (some bound) nullable :: bound.upwards
  | .fn params result => [.fn params result]

namespace Universe

variable {U : Universe} {limit levels : Nat} {target source : Instance} {s t : TypeExpr}

/-! ## Targets that are not nullable -/

theorem isNullable_of_acceptsFrom (ht : target.nullable = false)
    (h : U.acceptsFrom limit target levels source = .ok true) : source.nullable = false := by
  cases levels with
  | zero => cases h
  | succ levels =>
    cases hs : source.nullable with
    | false => rfl
    | true =>
      have hrejected : (source.nullable && !target.nullable) = true := by simp [hs, ht]
      rw [acceptsFrom_nullable hrejected] at h
      cases h

/-- An instance stands at the end of the chain, and nothing on the chain is nullable. -/
theorem isNullable_of_instanceAccepts (ht : target.nullable = false)
    (h : U.instanceAccepts limit target s = .ok true) :
    (∃ i : Instance, s.upwards.getLast? = some i.toExpr) ∧
      ∀ u ∈ s.upwards, u.isNullable = false := by
  induction s with
  | inst d args n =>
    have hn : n = false := isNullable_of_acceptsFrom ht h
    refine ⟨⟨⟨d, args, n⟩, rfl⟩, ?_⟩
    simpa [TypeExpr.upwards, TypeExpr.isNullable] using hn
  | var x n => cases h
  | bounded x b n ih =>
    rw [instanceAccepts] at h
    split at h
    · cases h
    · next hn =>
      obtain ⟨⟨i, hi⟩, hchain⟩ := ih h
      refine ⟨⟨i, ?_⟩, List.forall_mem_cons.mpr ⟨?_, hchain⟩⟩
      · rw [TypeExpr.upwards, List.getLast?_cons, hi, Option.getD_some]
      · show n = false
        simpa [ht] using hn
  | fn ps r _ _ => cases h

theorem isNullable_of_acceptsExpr (ht : t.isNullable = false)
    (h : U.acceptsExpr limit t s = .ok true) : s.isNullable = false := by
  cases t with
  | inst d args n =>
    obtain ⟨_, hchain⟩ := isNullable_of_instanceAccepts ht h
    apply hchain
    rcases s with _ | ⟨x, _ | b, m⟩ | _ <;> exact List.mem_cons_self
  | var x b n =>
    cases s with
    | inst e args m => cases h
    | var y c m =>
      obtain ⟨_, hnull⟩ := Variable.accepts_iff.mp (Except.ok.inj h)
      show m = false
      cases m with
      | false => rfl
      | true => exact (hnull rfl).symm.trans ht
    | fn qs r => cases h
  | fn ps r =>
    cases s with
    | inst e args m => cases h
    | var y c m => cases h
    | fn qs q => rfl

/-! ## Nullable targets -/

/-- What was found stays within reach: a branch that leads to the target leads there still.  It may
be that another one now comes before it, with an answer or with the limit, so all that can be said is
that the search does not give up. -/
theorem acceptsFrom_toNullable_ne_false
    (h : U.acceptsFrom limit target levels source = .ok true) :
    U.acceptsFrom limit target.toNullable levels source ≠ .ok false := by
  induction levels generalizing source with
  | zero => cases h
  | succ levels ih =>
    have hopen : (source.nullable && !target.toNullable.nullable) = false := by
      simp [Instance.toNullable]
    cases hn : source.nullable && !target.nullable with
    | true =>
      rw [acceptsFrom_nullable hn] at h
      cases h
    | false =>
      cases hd : target.definition.sameAs source.definition with
      | true =>
        rw [acceptsFrom_reached hn hd] at h
        rw [acceptsFrom_reached hopen hd]
        show Except.ok (target.args.sameAs source.args) ≠ _
        rw [h]
        exact nofun
      | false =>
        rw [acceptsFrom_up hn hd] at h
        rw [acceptsFrom_up hopen hd]
        obtain ⟨i, hi, h⟩ := exists_of_anyM_eq_true h
        obtain ⟨above, hr, h⟩ := bind_eq_ok_iff.mp h
        intro hfalse
        obtain ⟨above', hr', hnone⟩ := bind_eq_ok_iff.mp (anyM_eq_false_iff.mp hfalse i hi)
        obtain rfl : above = above' := Except.ok.inj (hr.symm.trans hr')
        exact ih h hnone

theorem instanceAccepts_toNullable_ne_false (h : U.instanceAccepts limit target s = .ok true) :
    U.instanceAccepts limit target.toNullable s ≠ .ok false := by
  induction s with
  | inst d args n => exact acceptsFrom_toNullable_ne_false h
  | var x n => cases h
  | bounded x b n ih =>
    rw [instanceAccepts] at h ⊢
    split at h
    · cases h
    · simpa [Instance.toNullable] using ih h
  | fn ps r _ _ => cases h

theorem acceptsFrom_of_nullable (ht : target.nullable = true) :
    U.acceptsFrom limit target levels source.toNullable =
      U.acceptsFrom limit target levels source := by
  cases levels with
  | zero => rfl
  | succ levels =>
    have hopen (n : Bool) : (n && !target.nullable) = false := by simp [ht]
    cases hd : target.definition.sameAs source.definition with
    | true =>
      have hd' : target.definition.sameAs source.toNullable.definition = true := hd
      rw [acceptsFrom_reached (hopen _) hd', acceptsFrom_reached (hopen _) hd]
      rfl
    | false =>
      have hd' : target.definition.sameAs source.toNullable.definition = false := hd
      rw [acceptsFrom_up (hopen _) hd', acceptsFrom_up (hopen _) hd]
      rfl

theorem instanceAccepts_of_nullable (ht : target.nullable = true) :
    U.instanceAccepts limit target s.toNullable = U.instanceAccepts limit target s := by
  rcases s with ⟨d, args, n⟩ | ⟨x, _ | b, n⟩ | ⟨ps, r⟩
  · show U.accepts limit target (Instance.toNullable ⟨d, args, n⟩) =
      U.accepts limit target ⟨d, args, n⟩
    exact acceptsFrom_of_nullable ht
  · rfl
  · simp [instanceAccepts, TypeExpr.toNullable, ht]
  · rfl

/-! ## All type expressions -/

theorem acceptsExpr_toNullable_ne_false (h : U.acceptsExpr limit t s = .ok true) :
    U.acceptsExpr limit t.toNullable s ≠ .ok false := by
  cases t with
  | inst d args n => exact instanceAccepts_toNullable_ne_false h
  | var x b n =>
    cases s with
    | inst e args m => cases h
    | var y c m =>
      obtain ⟨hname, _⟩ := Variable.accepts_iff.mp (Except.ok.inj h)
      have haccepts : Variable.accepts ⟨x, b, true⟩ ⟨y, c, m⟩ = true :=
        Variable.accepts_iff.mpr ⟨hname, fun _ => rfl⟩
      show Except.ok (Variable.accepts ⟨x, b, true⟩ ⟨y, c, m⟩) ≠ _
      rw [haccepts]
      exact nofun
    | fn qs q => cases h
  | fn ps r =>
    show U.acceptsExpr limit (.fn ps r) s ≠ _
    rw [h]
    exact nofun

theorem acceptsExpr_toNullable_toNullable (U : Universe) (limit : Nat) (t s : TypeExpr) :
    U.acceptsExpr limit t.toNullable s.toNullable = U.acceptsExpr limit t.toNullable s := by
  cases t with
  | inst d args n => exact instanceAccepts_of_nullable rfl
  | var x b n => cases s <;> simp [acceptsExpr, TypeExpr.toNullable, Variable.accepts]
  | fn ps r => cases s <;> rfl

/-- A type that is not nullable takes none that is, and an instance none that comes to it through a
nullable bound; the nullable form of a type does not refuse what the type takes, and tells no
nullable source from others. -/
theorem acceptsExpr_nullability (U : Universe) (limit : Nat) (t s : TypeExpr) :
    (U.acceptsExpr limit t s = .ok true → t.isNullable = false →
      s.isNullable = false ∧ ∀ target : Instance, t = target.toExpr →
        (∃ i : Instance, s.upwards.getLast? = some i.toExpr) ∧
          ∀ u ∈ s.upwards, u.isNullable = false) ∧
    (U.acceptsExpr limit t s = .ok true → U.acceptsExpr limit t.toNullable s ≠ .ok false) ∧
    U.acceptsExpr limit t.toNullable s = U.acceptsExpr limit t.toNullable s.toNullable := by
  refine ⟨fun h ht => ⟨isNullable_of_acceptsExpr ht h, ?_⟩, acceptsExpr_toNullable_ne_false,
    (U.acceptsExpr_toNullable_toNullable limit t s).symm⟩
  rintro target rfl
  exact isNullable_of_instanceAccepts ht h

end Universe

/-! ## A branch that comes first -/

namespace Detached

open Command

/-- An interface `Named`, a class `Base` that implements it, a class `Leaf` that extends `Base?` and
implements `Named` as well, and a variable `R` with the bound `Leaf`. -/
def commands : List Command := [
  startDraft "Named" .interfaceKind, close 0, startInstantiation 0, construct 1,
  startDraft "Base" .classKind, implement 3 2, close 4, startInstantiation 1, construct 5, nullable 6,
  startDraft "Leaf" .classKind, inherit 8 7, implement 9 2, close 10, startInstantiation 2,
  construct 11,
  startDraft "User" .classKind, addBoundedParameter 13 "R" 12, refer 14 "R"]

def session : Session := (Session.replay? commands).getD {}

def named : Instance := ⟨⟨0, ⟨"default", "Named"⟩, .interfaceKind⟩, [], false⟩

def leaf : Instance := ⟨⟨2, ⟨"default", "Leaf"⟩, .classKind⟩, [], false⟩

def element : TypeExpr := .var "R" (some leaf.toExpr) false

/-- With limit 1 `Named` takes `R` by the interface of its bound.  To `Named?` the nullable parent is
open, and the search goes up there until it comes to the limit. -/
theorem named_accepts_element :
    Session.Reachable true session ∧ .type named.toExpr ∈ session.items ∧
      .type element ∈ session.items ∧
      session.known.acceptsExpr 1 named.toExpr element = .ok true ∧
      HitsLimit (session.known.acceptsExpr 1 named.toExpr.toNullable element) ∧
      session.known.acceptsExpr 1 named.toExpr.toNullable element ≠ .ok false ∧
      (∀ u ∈ element.upwards, u.isNullable = false) ∧
      session.known.acceptsExpr 2 named.toExpr.toNullable element =
        session.known.acceptsExpr 2 named.toExpr.toNullable element.toNullable := by
  have hreplay : Session.replay? commands = some session := rfl
  have hnamed : .type named.toExpr ∈ session.items := Session.mem_of_instance? (n := 2) rfl
  have helement : .type element ∈ session.items := Session.mem_of_type? (n := 15) rfl
  have haccepts : session.known.acceptsExpr 1 named.toExpr element = .ok true := rfl
  have hhits : HitsLimit (session.known.acceptsExpr 1 named.toExpr.toNullable element) :=
    ⟨1, .assigningTo named.toNullable, rfl⟩
  obtain ⟨hsound, hmonotone, _⟩ := session.known.acceptsExpr_nullability 1 named.toExpr element
  obtain ⟨_, _, halike⟩ := session.known.acceptsExpr_nullability 2 named.toExpr element
  exact ⟨Session.reachable_of_replay? hreplay, hnamed, helement, haccepts, hhits,
    hmonotone haccepts, ((hsound haccepts rfl).2 named rfl).2, halike⟩

end Detached

end NominalTypes
