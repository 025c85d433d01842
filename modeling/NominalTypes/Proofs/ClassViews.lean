import NominalTypes.Proofs.Subtyping

/-!
# Types seen as a class

A class is looked for along the chain of parents only, and the search ends at the first definition
that has its name.  However many declarations share this name, there is thus one list of arguments
with which a type can be seen as the class.

* `Universe.View`: the type at which the search for a class ends;
* `Universe.View.unique`: there is one at most;
* `Universe.view_of_acceptsFrom`: a type that is accepted as a class has a view as it, with the
  arguments of the class;
* `Session.Reachable.class_view_unique`: so these arguments are the only ones.
-/

namespace NominalTypes

namespace Universe

variable {U : Universe} {d e : Definition} {s t u v : Instance}

/-- The first type on the chain of parents, from `s` upwards, whose definition has the name. -/
inductive View (U : Universe) (d : Definition) : Instance → Instance → Prop where
  | here {s : Instance} : d.sameAs s.definition = true → View U d s s
  | up {s t v : Instance} : d.sameAs s.definition = false → U.ParentHop s t → View U d t v →
    View U d s v

theorem ParentHop.unique (h : U.ParentHop s t) (h' : U.ParentHop s u) : t = u := by
  obtain ⟨i, hi, hr⟩ := h
  obtain ⟨j, hj, hr'⟩ := h'
  rw [hi] at hj
  cases hj
  rw [hr] at hr'
  exact Except.ok.inj hr'

namespace View

theorem unique (h : U.View d s u) (h' : U.View d s v) : u = v := by
  induction h with
  | here hd =>
    cases h' with
    | here _ => rfl
    | up hd' _ _ =>
      rw [hd] at hd'
      cases hd'
  | up hd hop _ ih =>
    cases h' with
    | here hd' =>
      rw [hd] at hd'
      cases hd'
    | up _ hop' hview => exact ih (hop.unique hop' ▸ hview)

/-- Only the name of the class counts. -/
theorem congr (hde : d.sameAs e = true) (h : U.View d s v) : U.View e s v := by
  have hname (c : Definition) : e.sameAs c = d.sameAs c := by
    rw [Definition.sameAs, Definition.sameAs, Definition.sameAs_iff.mp hde]
  induction h with
  | here hd => exact .here (by rwa [hname])
  | up hd hop _ ih => exact .up (by rwa [hname]) hop ih

theorem admitsArgs (hU : U.Coherent) (hs : U.AdmitsArgs s.args) (h : U.View d s v) :
    U.AdmitsArgs v.args := by
  induction h with
  | here _ => exact hs
  | up _ hop _ ih => exact ih (hU.admitsArgs_of_hop hs hop.hop)

end View

/-! ## The search for a class -/

/-- The parent is the only candidate, so the search goes where the view goes. -/
theorem view_of_acceptsFrom {limit levels : Nat} {target source : Instance}
    (hc : target.definition.isInterface = false)
    (h : U.acceptsFrom limit target levels source = .ok true) :
    ∃ v, U.View target.definition source v ∧ target.args.sameAs v.args = true := by
  induction levels generalizing source with
  | zero => cases h
  | succ levels ih =>
    cases hn : source.nullable && !target.nullable with
    | true =>
      rw [acceptsFrom_nullable hn] at h
      cases h
    | false =>
      cases hd : target.definition.sameAs source.definition with
      | true =>
        rw [acceptsFrom_reached hn hd] at h
        exact ⟨source, .here hd, Except.ok.inj h⟩
      | false =>
        rw [acceptsFrom_up hn hd, candidates_of_class hc] at h
        obtain ⟨i, hi, h⟩ := exists_of_anyM_eq_true h
        obtain ⟨above, hr, h⟩ := bind_eq_ok_iff.mp h
        obtain ⟨v, hv, hargs⟩ := ih h
        exact ⟨v, .up hd ⟨i, Option.mem_toList.mp hi, hr⟩ hv, hargs⟩

end Universe

/-! ## Reachable sessions -/

namespace Session

variable {lenient : Bool} {S : Session}

/-- Two targets over one class, or over two classes of one name, accept the same type only if their
arguments are equal, whatever their nullability and the depth limits.  No declarations need to be
unambiguous for this. -/
theorem Reachable.class_view_unique (h : Reachable lenient S) {target target' source : Instance}
    (ht' : .type target'.toExpr ∈ S.items) (hs : .type source.toExpr ∈ S.items)
    (hd : target.definition.sameAs target'.definition = true)
    (hc : target.definition.isInterface = false) (hc' : target'.definition.isInterface = false)
    {limit limit' : Nat} (ha : S.known.accepts limit target source = .ok true)
    (ha' : S.known.accepts limit' target' source = .ok true) :
    target.args.sameAs target'.args = true := by
  have hsource := (Universe.admits_toExpr.mp (h.admits hs)).2
  have htarget' := (Universe.admits_toExpr.mp (h.admits ht')).2
  obtain ⟨v, hv, hargs⟩ := Universe.view_of_acceptsFrom hc ha
  obtain ⟨v', hv', hargs'⟩ := Universe.view_of_acceptsFrom hc' ha'
  obtain rfl : v = v' := (hv.congr hd).unique hv'
  have hview := hv.admitsArgs h.wellFormed.coherent hsource
  have hback : v.args.sameAs target'.args = true :=
    Bindings.sameAs_symm htarget'.1 hview.1 htarget'.distinct hview.distinct hargs'
  exact Bindings.sameAs_trans hargs hback

end Session

namespace Reissues

open Command

/-- A class `Box<T>`, a class `Crate` that extends `Box<T=Text>`, a second class `Box<T>` that extends
`Crate`, and a class `Parcel<U>` that extends the second `Box<T=U>`. -/
def commands : List Command := [
  startDraft "Name" .classKind, close 0, startInstantiation 0, construct 1,
  startDraft "Text" .classKind, close 3, startInstantiation 1, construct 4,
  startDraft "Box" .classKind, addParameter 6 "T", close 7,
  startInstantiation 2, bind 8 "T" 5, construct 9,
  startDraft "Crate" .classKind, inherit 11 10, close 12, startInstantiation 3, construct 13,
  startDraft "Box" .classKind, addParameter 15 "T", inherit 16 14, close 17,
  startDraft "Parcel" .classKind, addParameter 18 "U", refer 19 "U",
  startInstantiation 4, bind 21 "T" 20, construct 22, inherit 19 23, close 24,
  startInstantiation 5, bind 25 "U" 2, construct 26,
  bind 21 "T" 2, construct 28, bind 8 "T" 2, construct 30, nullable 31]

def session : Session := (Session.replay? commands).getD {}

def name : TypeExpr := .inst ⟨0, ⟨"default", "Name"⟩, .classKind⟩ [] false

def text : TypeExpr := .inst ⟨1, ⟨"default", "Text"⟩, .classKind⟩ [] false

/-- An instance of the first class `Box`. -/
def box (argument : TypeExpr) (nullable : Bool) : Instance :=
  ⟨⟨2, ⟨"default", "Box"⟩, .classKind⟩, [("T", argument)], nullable⟩

def crate : Instance := ⟨⟨3, ⟨"default", "Crate"⟩, .classKind⟩, [], false⟩

def reissuedBox : Instance := ⟨⟨4, ⟨"default", "Box"⟩, .classKind⟩, [("T", name)], false⟩

def parcel : Instance := ⟨⟨5, ⟨"default", "Parcel"⟩, .classKind⟩, [("U", name)], false⟩

/-- A `Parcel<U=Name>` can be seen as a `Box<T=Name>`, be it of the second class or of the first and
nullable.  It is therefore never accepted as a `Box<T=Text>`, which its parent's parent extends. -/
theorem parcel_one_box :
    session.known.accepts 1 reissuedBox parcel = .ok true ∧
    session.known.accepts 1 (box name true) parcel = .ok true ∧
    reissuedBox.args.sameAs (box name true).args = true ∧
    session.known.accepts 2 crate parcel = .ok true ∧
    session.known.accepts 1 (box text false) crate = .ok true ∧
    ∀ limit, session.known.accepts limit (box text false) parcel ≠ .ok true := by
  have hreplay : Session.replay? commands = some session := rfl
  have h : Session.Reachable true session := Session.reachable_of_replay? hreplay
  have hbox : .type (box name true).toExpr ∈ session.items :=
    Session.mem_of_instance? (n := 32) rfl
  have hparcel : .type parcel.toExpr ∈ session.items := Session.mem_of_instance? (n := 27) rfl
  have hreissued : session.known.accepts 1 reissuedBox parcel = .ok true := rfl
  have hnullable : session.known.accepts 1 (box name true) parcel = .ok true := rfl
  refine ⟨hreissued, hnullable, ?_, rfl, rfl, fun limit htext => ?_⟩
  · exact h.class_view_unique hbox hparcel (by decide) rfl rfl hreissued hnullable
  · have hsame := h.class_view_unique hbox hparcel (by decide) rfl rfl htext hnullable
    exact absurd hsame (by decide)

end Reissues

end NominalTypes
