import NominalTypes.Proofs.Bounds.Specialization
import NominalTypes.Proofs.Exactness

/-!
# Bounds in sessions

Instantiation checks bounds once.  From then on they are kept by queries, by the remapping of
supertypes and by attaching bounds when a definition closes:

* `Universe.Coherent.withinBounds_of_construct` and `Universe.Coherent.keepsBounds`: the check, and
  what it says when it is made again;
* `Universe.Coherent.proper_withBounds`: attaching bounds;
* `Session.Careful`, `Session.Uniform`: runs that chosen bindings do not spoil, and what else keeping
  bounds depends on;
* `Session.Careful.all_proper`: every instance of such a session is within bounds.
-/

namespace NominalTypes

/-! ## The check -/

namespace Instantiation

variable {U : Universe} {i : Instantiation} {p : Parameter}

theorem checkParameter_bounded {declared : TypeExpr} (h : p.bound = some declared) :
    i.checkParameter U p = (i.args.resolve p.name >>= fun argument =>
      declared.substitute i.args >>= fun bound =>
        U.acceptsExpr i.limit bound argument >>= fun answer =>
          if answer then .ok ()
          else .error (.boundViolation i.definition.name p.name bound argument)) := by
  unfold checkParameter
  rw [h]
  rfl

/-- An argument that is rejected has a bound that does not accept it. -/
theorem checkParameter_eq_violation {definition parameter : String} {bound argument : TypeExpr}
    (h : i.checkParameter U p = .error (.boundViolation definition parameter bound argument)) :
    ∃ declared, p.bound = some declared ∧ declared.substitute i.args = .ok bound ∧
      i.args.type? p.name = some argument ∧ U.acceptsExpr i.limit bound argument = .ok false := by
  cases hp : p.bound with
  | none =>
    unfold checkParameter at h
    rw [hp, Bindings.resolve] at h
    split at h <;> cases h
  | some declared =>
    rw [checkParameter_bounded hp, Bindings.resolve] at h
    cases ha : i.args.type? p.name with
    | none =>
      rw [ha] at h
      cases h
    | some t =>
      rw [ha] at h
      rcases bind_eq_error_iff.mp h with h | ⟨_, _, h⟩
      · cases h
      · rename_i hok
        cases hok
        rcases bind_eq_error_iff.mp h with h | ⟨b, hb, h⟩
        · obtain ⟨_, hf⟩ := TypeExpr.substitute_eq_error h
          cases hf
        · rcases bind_eq_error_iff.mp h with h | ⟨answer, hanswer, h⟩
          · rcases Universe.acceptsExpr_eq_error h with ⟨_, hf⟩ | ⟨_, hf⟩ <;> cases hf
          · cases answer
            · cases h
              exact ⟨declared, rfl, hb, rfl, hanswer⟩
            · cases h

theorem construct_eq_violation {definition parameter : String} {bound argument : TypeExpr}
    (h : i.construct U = .error (.boundViolation definition parameter bound argument)) :
    ∃ p ∈ U.parameters i.definition,
      i.checkParameter U p = .error (.boundViolation definition parameter bound argument) := by
  rw [construct, bind_eq_error_iff] at h
  rcases h with h | ⟨_, _, h⟩
  · obtain ⟨_, hf⟩ := checkNames_eq_error h
    cases hf
  · rcases bind_eq_error_iff.mp h with h | ⟨_, _, h⟩
    · rcases forM_eq_ok_or_error (i.checkParameter U) (U.parameters i.definition) with
        ⟨hok, _⟩ | ⟨p, hp, e, hcheck, herror⟩
      · rw [hok] at h
        cases h
      · rw [herror] at h
        cases h
        exact ⟨p, hp, hcheck⟩
    · cases h

end Instantiation

namespace Universe

variable {U V : Universe} {d : Definition} {args : Bindings}

/-- With these arguments instantiation does not fail at a bound, whatever its depth limit. -/
def KeepsBounds (U : Universe) (i : Instance) : Prop :=
  ∀ limit definition parameter bound argument,
    (⟨i.definition, i.args, i.nullable, limit⟩ : Instantiation).construct U ≠
      .error (.boundViolation definition parameter bound argument)

theorem Coherent.admits_bound (hU : U.Coherent) {p : Parameter} (hp : p ∈ U.parameters d)
    {declared : TypeExpr} (h : p.bound = some declared) (hargs : U.AdmitsArgs args)
    {bound : TypeExpr} (hsub : declared.substitute args = .ok bound) : U.Admits bound :=
  (hU.admits_of_bound hp h).substitute hargs.2 hsub

theorem Coherent.withinBounds_of_construct (hU : U.Coherent) (hu : U.Unambiguous)
    {i : Instantiation} {made : Instance} (hargs : U.AdmitsArgs i.args)
    (h : i.construct U = .ok made) : U.WithinBounds i.definition i.args := by
  obtain ⟨_, hparameters, _⟩ := Instantiation.construct_eq_ok h
  intro p hp declared hdeclared bound hbound argument hargument
  have hcheck := hparameters p hp
  rw [Instantiation.checkParameter_bounded hdeclared, Bindings.resolve, hargument, hbound] at hcheck
  obtain ⟨answer, hanswer, hcheck⟩ : ∃ answer, U.acceptsExpr i.limit bound argument = .ok answer ∧
      _ := bind_eq_ok_iff.mp hcheck
  have hab := hU.admits_bound hp hdeclared hargs hbound
  have haa : U.Admits argument := hargs.2 _ (Bindings.mem_of_type? hargument)
  cases answer with
  | true => exact (hU.acceptsExpr_eq_iff hu hab haa hanswer).mp rfl
  | false => cases hcheck

theorem Coherent.keepsBounds (hU : U.Coherent) (hu : U.Unambiguous) {i : Instance}
    (hi : U.Admits i.toExpr) (h : U.WithinBounds i.definition i.args) : U.KeepsBounds i := by
  intro limit definition parameter bound argument herror
  have hargs := (admits_toExpr.mp hi).2
  obtain ⟨p, hp, hcheck⟩ := Instantiation.construct_eq_violation herror
  obtain ⟨declared, hdeclared, hbound, hargument, hanswer⟩ :=
    Instantiation.checkParameter_eq_violation hcheck
  have hab := hU.admits_bound hp hdeclared hargs hbound
  have haa : U.Admits argument := hargs.2 _ (Bindings.mem_of_type? hargument)
  have hfits := h p hp declared hdeclared bound hbound argument hargument
  exact absurd ((hU.acceptsExpr_eq_iff hu hab haa hanswer).mpr hfits) Bool.false_ne_true

/-! ## Growth and attached bounds -/

theorem Grows.proper (h : U.Grows V) (hd : U.Proper d args) : V.Proper d args := by
  obtain ⟨hexact, hwithin⟩ := hd
  have hparameters : V.parameters d = U.parameters d := congrArg (·.parameters) (h.body hexact.1)
  refine ⟨h.exact hexact, fun p hp declared hdeclared bound hbound argument hargument => ?_⟩
  rw [hparameters] at hp
  exact h.fitsExpr (hwithin p hp declared hdeclared bound hbound argument hargument)

theorem Warranted.of_grows {parameters : List Parameter} (hU : U.Coherent) (h : U.Grows V)
    (hp : ∀ p ∈ parameters, ∀ b, p.bound = some b → b.All fun d _ => U.isClosed d = true)
    {t : TypeExpr} (ht : t.All fun d _ => U.isClosed d = true) (hw : V.Warranted parameters t) :
    U.Warranted parameters t := by
  induction hw with
  | inst => exact .inst
  | var => exact .var
  | @bounded p declared b n hmem hbound hfits _ _ ihd ihb =>
    have hd := hp p hmem declared hbound
    have hb := TypeExpr.all_bounded.mp ht
    exact .bounded hmem hbound (h.fitsExpr_of_closed hU hd hfits) (ihd hd) (ihb hb)
  | fn => exact .fn

section Attached

variable {parameters : List Parameter} {t a : TypeExpr}

/-- A reference without a bound fits no instance, so one that is given a bound had nothing to lose. -/
theorem Coherent.fitsExpr_withBounds (hU : U.Coherent) (ha : U.Admits a) (h : U.FitsExpr t a) :
    U.FitsExpr t (a.withBounds parameters) := by
  have hsame : a.sameAs (a.withBounds parameters) = true := TypeExpr.sameAs_withBounds ha.distinct
  cases t with
  | inst d as n =>
    cases a with
    | inst e bs m =>
      have hargs := (TypeExpr.sameAs_inst_iff.mp hsame).2.2
      have hfits : U.Fits ⟨d, as, n⟩ ⟨e, bs, m⟩ := h
      exact hU.fits_congr_source hfits rfl (fun _ hm => hm) hargs
    | var y c m =>
      cases c with
      | none => exact absurd h id
      | some c => exact h
    | fn qs r => exact absurd h id
  | var x b n =>
    cases a with
    | inst e bs m => exact absurd h id
    | var y c m => cases c <;> exact h
    | fn qs r => exact absurd h id
  | fn ps q =>
    cases a with
    | inst e bs m => exact absurd h id
    | var y c m => exact absurd h id
    | fn qs r => exact TypeExpr.sameAs_trans h hsame

/-- The bounds that the arguments make are equal to those that they make with bounds attached. -/
theorem Coherent.withinBounds_withBounds (hU : U.Coherent) (hu : U.Unambiguous)
    (hp : ∀ p ∈ parameters, ∀ b, p.bound = some b → U.Admits b) (hargs : U.AdmitsArgs args)
    (h : U.Proper d args) : U.WithinBounds d (TypeExpr.withBoundsEach parameters args) := by
  have hargs' : U.AdmitsArgs (TypeExpr.withBoundsEach parameters args) := by
    refine ⟨?_, fun e he => ?_⟩
    · rw [TypeExpr.names_withBoundsEach]
      exact hargs.1
    · rw [TypeExpr.withBoundsEach_eq_map] at he
      obtain ⟨f, hf, rfl⟩ := List.mem_map.mp he
      exact (hargs.2 f hf).withBounds hp
  intro p hmem declared hdeclared bound' hbound' argument' hargument'
  rw [TypeExpr.type?_withBoundsEach] at hargument'
  obtain ⟨argument, hargument, rfl⟩ := Option.map_eq_some_iff.mp hargument'
  have hfull : U.Full ⟨d, args, false⟩ := Proper.full h
  obtain ⟨bound, hbound⟩ :=
    hU.exists_substitute hfull (Body.mem_types_iff.mpr (.inl ⟨p, hmem, hdeclared⟩))
  have hd := (hU.admits_of_bound hmem hdeclared).distinct
  have hsame : args.sameAs (TypeExpr.withBoundsEach parameters args) = true :=
    (TypeExpr.sameAs_inst_iff.mp (TypeExpr.sameAs_withBounds (t := .inst d args false)
      (TypeExpr.everywhere_inst.mpr ⟨hargs.1, hargs.distinct⟩))).2.2
  obtain ⟨bound'', hbound'', hbounds⟩ :=
    TypeExpr.substitute_congr hd hd (TypeExpr.sameAs_refl hd) hsame hbound
  obtain rfl : bound'' = bound' := Except.ok.inj (hbound''.symm.trans hbound')
  have hab := hU.admits_bound hmem hdeclared hargs hbound
  have hab' := hU.admits_bound hmem hdeclared hargs' hbound'
  have hsymm := TypeExpr.sameAs_symm hab.distinct hab'.distinct hbounds
  have haa : U.Admits argument := hargs.2 _ (Bindings.mem_of_type? hargument)
  have hfits := h.2 p hmem declared hdeclared bound hbound argument hargument
  exact hU.fitsExpr_withBounds haa (hu.fitsExpr_congr hab hab' hsymm hfits)

theorem Coherent.proper_withBounds (hU : U.Coherent) (hu : U.Unambiguous)
    (hp : ∀ p ∈ parameters, ∀ b, p.bound = some b → U.Admits b ∧ b.All U.Proper)
    (ht : U.Admits t) (h : t.All U.Proper) : (t.withBounds parameters).All U.Proper := by
  induction t with
  | inst d args n ih =>
    obtain ⟨hself, hargs⟩ := TypeExpr.all_inst.mp h
    obtain ⟨hknown, hadmits⟩ := TypeExpr.everywhere_inst.mp ht
    have hwithin := hU.withinBounds_withBounds hu (fun p hmem b hb => (hp p hmem b hb).1)
      ⟨hknown.2, hadmits⟩ hself
    refine TypeExpr.all_inst.mpr ⟨⟨?_, hwithin⟩, fun e he => ?_⟩
    · rw [TypeExpr.names_withBoundsEach]
      exact hself.1
    · rw [TypeExpr.withBoundsEach_eq_map] at he
      obtain ⟨f, hf, rfl⟩ := List.mem_map.mp he
      exact ih f hf (hadmits f hf) (hargs f hf)
  | var x n =>
    rw [TypeExpr.withBounds]
    cases hb : (Parameter.named? x parameters).bind (·.bound) with
    | none => exact TypeExpr.all_var
    | some b =>
      obtain ⟨p, hmem, hpb⟩ := TypeExpr.bound_of_named? hb
      exact TypeExpr.all_bounded.mpr (hp p hmem b hpb).2
  | bounded x b n _ => exact h
  | fn ps r ihp ihr =>
    obtain ⟨hps, hr⟩ := TypeExpr.all_fn.mp h
    obtain ⟨haps, har⟩ := TypeExpr.everywhere_fn.mp ht
    rw [TypeExpr.withBounds, TypeExpr.withBoundsEach_eq_map]
    refine TypeExpr.all_fn.mpr ⟨fun e he => ?_, ihr har hr⟩
    obtain ⟨f, hf, rfl⟩ := List.mem_map.mp he
    exact ihp f hf (haps f hf) (hps f hf)

end Attached

end Universe

/-! ## Runs -/

namespace Session

variable {s t : Session}

/-- A run from nothing in which no open definition is instantiated, and chosen bindings are
substituted only where the result is within bounds: such bindings are not checked against anything. -/
inductive Careful : Session → Prop where
  | start : Careful {}
  | step {s t : Session} : Careful s → Step false s t →
    (∀ item, t.items = item :: s.items → s.Substitutes item → item.All s.known.WithinBounds) →
    Careful t

/-- No qualified name is used twice, references in declarations carry warranted bounds, and all types
have tight arguments. -/
structure Uniform (s : Session) : Prop where
  names : s.known.Unambiguous
  bodies : s.known.WarrantedBodies
  types : ∀ t, .type t ∈ s.items → t.All s.known.Tight

theorem Careful.reachable (h : s.Careful) : Reachable false s := by
  induction h with
  | start => exact .refl _
  | step _ hstep _ ih => exact ih.step hstep

theorem Step.items_subset {lenient : Bool} (h : Step lenient s t) :
    ∀ item ∈ s.items, item ∈ t.items :=
  Reaches.items_subset (Reaches.step (.refl s) h)

/-- Where no bindings are made apart from types, a run is careful. -/
theorem Reachable.careful (h : Reachable false s) (hb : ∀ b, .bindings b ∉ s.items) :
    s.Careful := by
  induction h with
  | refl => exact .start
  | step _ hstep ih =>
    have hb (b : Bindings) := fun hmem => hb b (hstep.items_subset _ hmem)
    refine .step (ih hb) hstep fun item _ hsub => ?_
    cases hsub with
    | type _ hmem _ => exact absurd hmem (hb _)
    | remap _ hmem _ => exact absurd hmem (hb _)
    | found hmem _ => exact absurd hmem (hb _)

/-- The definitions that a declaration mentions are closed by then, so that its bounds can be judged
at once. -/
theorem Uniform.of_step (hr : Reachable false s) (h : Step false s t) (ht : t.Uniform) :
    s.Uniform where
  names d hd e he := by
    have hgrows := hr.wellFormed.grows h
    exact ht.names d (hgrows.definitions d hd) e (hgrows.definitions e he)
  bodies d hd type htype := by
    have hgrows := hr.wellFormed.grows h
    have hclosed : s.known.isClosed d = true := by
      cases hb : s.known.body? d with
      | none =>
        rw [Universe.body, hb] at htype
        exact absurd htype List.not_mem_nil
      | some b => rw [Universe.isClosed, hb, Option.isSome_some]
    have hbody := hgrows.body hclosed
    have hmentioned {u : TypeExpr} (hu : u ∈ (s.known.body d).types) :
        u.All fun e _ => s.known.isClosed e = true :=
      (hr.all_exact.bodies d u hu).imp fun _ _ hexact => hexact.1
    have hparameters (p : Parameter) (hp : p ∈ s.known.parameters d) (b : TypeExpr)
        (hb : p.bound = some b) : b.All fun e _ => s.known.isClosed e = true :=
      hmentioned (Body.mem_types_iff.mpr (.inl ⟨p, hp, hb⟩))
    have hwarranted := ht.bodies d (hgrows.definitions d hd) type (hbody ▸ htype)
    rw [Universe.parameters, hbody] at hwarranted
    intro i hi e he
    have hargs := TypeExpr.all_inst.mp ((hmentioned htype).of_mem_instances hi)
    exact (hwarranted i hi e he).of_grows hr.wellFormed.coherent hgrows hparameters (hargs.2 e he)
  types type hmem i hi := by
    have hgrows := hr.wellFormed.grows h
    have hexact := (hr.all_exact.type hmem).of_mem_instances hi
    have hself := (TypeExpr.all_inst.mp hexact).1
    have hparameters : t.known.parameters i.definition = s.known.parameters i.definition :=
      congrArg (·.parameters) (hgrows.body hself.1)
    intro p hp declared hdeclared bound hbound argument hargument
    have htight := ht.types type (h.items_subset _ hmem) i hi p (hparameters ▸ hp) declared hdeclared
      bound hbound argument hargument
    have hclosed := (TypeExpr.all_inst.mp hexact).2 _ (Bindings.mem_of_type? hargument)
    exact htight.of_grows hr.wellFormed.coherent hgrows (hclosed.imp fun _ _ hd => hd.1)

/-! ## All instances of a session -/

theorem All.bounded (hw : s.WellFormed) (hu : s.Uniform) (hs : s.All s.known.Proper) :
    s.known.Bounded := ⟨hw.coherent, hs.bodies, hu.bodies⟩

theorem All.sturdy (hw : s.WellFormed) (hu : s.Uniform) (hs : s.All s.known.Proper) {type : TypeExpr}
    (ht : .type type ∈ s.items) {i : Instance} (hi : i ∈ type.instances) : s.known.Sturdy i where
  admits := fun j hj => hw.items _ ht j (TypeExpr.instances_subset hi hj)
  proper := (hs.type ht).of_mem_instances hi
  tight := hu.types type ht i hi

theorem All.computes_proper (hr : Reachable false s) (hu : s.Uniform)
    (hs : s.All s.known.Proper) : s.Computes false s.known.Proper where
  construct i made hi hclosed h := by
    have hw := Reachable.wellFormed hr
    have hclosed : s.known.isClosed i.definition = true := hclosed.resolve_left Bool.false_ne_true
    have hargs := (Universe.admits_toExpr.mp (hw.items _ hi)).2
    exact ⟨i.exact_of_construct hclosed h, hw.coherent.withinBounds_of_construct hu.names hargs h⟩
  property type on nodes top p r ht hon hroute hp h := by
    have hw := Reachable.wellFormed hr
    exact (hs.bounded hw hu).proper_property (hs.sturdy hw hu ht hon) hroute hp h
  attached draft hd p hp := by
    have hw := Reachable.wellFormed hr
    have hallows := (hw.items _ hd).allows
    have hdeclared := hs.draft hd
    rw [Draft.body, TypeExpr.withBoundsEach_eq_map] at hp
    obtain ⟨q, hq, rfl⟩ := List.mem_map.mp hp
    refine hw.coherent.proper_withBounds hu.names (fun x hx b hb => ⟨hallows.bounds x hx b hb, ?_⟩)
      (hallows.properties q hq) (hdeclared _ (Body.property_mem_types hq))
    exact hdeclared b (Body.mem_types_iff.mpr (.inl ⟨x, hx, hb⟩))

theorem Careful.all_proper (h : s.Careful) (hu : s.Uniform) : s.All s.known.Proper := by
  induction h with
  | start => exact all_empty
  | @step s t h hstep hsub ih =>
    have hr := h.reachable
    have hw := Reachable.wellFormed hr
    have hus := hu.of_step hr hstep
    have hs := ih hus
    have hproper (item : Item) (hitem : t.items = item :: s.items) (h : s.Substitutes item) :
        item.All s.known.Proper :=
      (hr.all_exact.item_of_substitutes h).and (hsub item hitem h)
    exact (hs.step hw (hs.computes_proper hr hus) hproper hstep).imp
      fun d args => (hw.grows hstep).proper

end Session

end NominalTypes
