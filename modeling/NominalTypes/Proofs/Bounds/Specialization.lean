import NominalTypes.Proofs.Bounds.Fitting
import NominalTypes.Proofs.PropertyPaths
import NominalTypes.Proofs.Specialization.Subtyping

/-!
# Bounds under substitution

An argument that is a reference to a type parameter is within a bound thanks to the bound that the
reference carries.  Here `s` is a type whose own arguments are within bounds (`Universe.Sturdy`), and
what its definition declares is seen from these arguments.  Provided that the declared bound of a
parameter warrants the bounds that references to it carry (`Universe.Warranted`):

* `Universe.Bounded.fitsInstance_instantiate`, `Universe.Bounded.fitsExpr_instantiate`: what fits goes
  on to fit, a reference being replaced by an argument that is within the declared bound;
* `Universe.Bounded.withinBounds_instantiate`: so arguments stay within bounds;
* `Universe.Bounded.proper_substitute`: so does every instance in a declared type, and
  `Universe.Bounded.sturdy_of_path` goes on from there to all supertypes.
-/

namespace NominalTypes

/-! ## Conditions -/

namespace Universe

/-- Each argument fits the bound of its parameter, as the arguments make it. -/
def WithinBounds (U : Universe) (d : Definition) (args : Bindings) : Prop :=
  ∀ p ∈ U.parameters d, ∀ declared, p.bound = some declared →
    ∀ bound, declared.substitute args = .ok bound →
      ∀ argument, args.type? p.name = some argument → U.FitsExpr bound argument

/-- Exact arguments within their bounds. -/
def Proper (U : Universe) (d : Definition) (args : Bindings) : Prop :=
  U.Exact d (args.map (·.1)) ∧ U.WithinBounds d args

/-- Where a parameter's bound becomes a reference and the argument refers to the same variable, the
argument carries a bound that is no weaker. -/
def Tight (U : Universe) (d : Definition) (args : Bindings) : Prop :=
  ∀ p ∈ U.parameters d, ∀ declared, p.bound = some declared →
    ∀ bound, declared.substitute args = .ok bound →
      ∀ argument, args.type? p.name = some argument → U.Refines bound argument

/-- The bound that a reference carries is one that the declared bound of the parameter fits; where
one of the two is a reference again, this holds of it in turn. -/
inductive Warranted (U : Universe) (parameters : List Parameter) : TypeExpr → Prop where
  | inst {d : Definition} {args : Bindings} {n : Bool} : Warranted U parameters (.inst d args n)
  | var {x : String} {n : Bool} : Warranted U parameters (.var x none n)
  | bounded {p : Parameter} {declared b : TypeExpr} {n : Bool} : p ∈ parameters →
    p.bound = some declared → U.FitsExpr b declared → Warranted U parameters declared →
    Warranted U parameters b → Warranted U parameters (.var p.name (some b) n)
  | fn {ps : List (String × TypeExpr)} {r : TypeExpr} : Warranted U parameters (.fn ps r)

/-- In what a definition declares, references that are type arguments carry warranted bounds. -/
def WarrantedBodies (U : Universe) : Prop :=
  ∀ d ∈ U.definitions, ∀ t ∈ (U.body d).types,
    t.All fun _ args => ∀ e ∈ args, U.Warranted (U.parameters d) e.2

structure Bounded (U : Universe) : Prop where
  coherent : U.Coherent
  proper : ∀ d, ∀ t ∈ (U.body d).types, t.All U.Proper
  warranted : U.WarrantedBodies

structure Sturdy (U : Universe) (s : Instance) : Prop where
  admits : U.Admits s.toExpr
  proper : s.toExpr.All U.Proper
  tight : U.Tight s.definition s.args

/-- What is true of every type that the definition of `s` mentions. -/
structure Mentions (U : Universe) (s : Instance) (t : TypeExpr) : Prop where
  admits : U.Admits t
  proper : t.All U.Proper
  binds : ∀ v ∈ t.references, s.args.binds v.name = true

variable {U : Universe} {s above target target' : Instance}

theorem Proper.full {i : Instance} (h : U.Proper i.definition i.args) : U.Full i :=
  fun p hp => Bindings.binds_iff.mpr (h.1.2.1 p hp)

namespace Sturdy

theorem definition_mem (hs : U.Sturdy s) : s.definition ∈ U.definitions :=
  (admits_toExpr.mp hs.admits).1

theorem admitsArgs (hs : U.Sturdy s) : U.AdmitsArgs s.args := (admits_toExpr.mp hs.admits).2

theorem proper_self (hs : U.Sturdy s) : U.Proper s.definition s.args :=
  (TypeExpr.all_inst.mp hs.proper).1

theorem proper_args (hs : U.Sturdy s) : ∀ e ∈ s.args, e.2.All U.Proper :=
  (TypeExpr.all_inst.mp hs.proper).2

theorem full (hs : U.Sturdy s) : U.Full s := hs.proper_self.full

end Sturdy

namespace Mentions

variable {t : TypeExpr}

theorem args {d : Definition} {args : Bindings} {n : Bool} (h : U.Mentions s (.inst d args n)) :
    ∀ e ∈ args, U.Mentions s e.2 := by
  intro e he
  refine ⟨(TypeExpr.everywhere_inst.mp h.admits).2 e he, (TypeExpr.all_inst.mp h.proper).2 e he, ?_⟩
  intro v hv
  refine h.binds v ?_
  rw [TypeExpr.references, TypeExpr.referencesOfEach_eq_flatMap]
  exact List.mem_flatMap.mpr ⟨e, he, hv⟩

theorem bounded {x : String} {b : TypeExpr} {n : Bool} (h : U.Mentions s (.var x (some b) n)) :
    U.Mentions s b where
  admits := TypeExpr.everywhere_bounded.mp h.admits
  proper := TypeExpr.all_bounded.mp h.proper
  binds v hv := h.binds v (List.mem_cons_of_mem _ hv)

theorem fn {ps : List (String × TypeExpr)} {r : TypeExpr} (h : U.Mentions s (.fn ps r)) :
    (∀ e ∈ ps, U.Mentions s e.2) ∧ U.Mentions s r := by
  obtain ⟨hpadmits, hradmits⟩ := TypeExpr.everywhere_fn.mp h.admits
  obtain ⟨hpproper, hrproper⟩ := TypeExpr.all_fn.mp h.proper
  have hbinds := h.binds
  rw [TypeExpr.references, TypeExpr.referencesOfEach_eq_flatMap, List.forall_mem_append] at hbinds
  refine ⟨fun e he => ⟨hpadmits e he, hpproper e he, fun v hv => ?_⟩, hradmits, hrproper, hbinds.2⟩
  exact hbinds.1 v (List.mem_flatMap.mpr ⟨e, he, hv⟩)

theorem exists_instantiate (h : U.Mentions s t) : ∃ r, t.instantiate s.args = .ok r :=
  TypeExpr.exists_instantiate_iff.mpr fun v hv =>
    h.binds v (TypeExpr.occurrences_subset_references t hv)

end Mentions

namespace Bounded

theorem full (hU : U.Bounded) {d : Definition} {i : Instance} (hi : i ∈ U.supertypes d) :
    U.Full i :=
  (TypeExpr.all_inst.mp (hU.proper d _ (Body.supertype_mem_types hi))).1.full

/-! ## Instances that fit -/

/-- A path goes the same way after substitution. -/
theorem exists_path_remap (hU : U.Bounded) {σ : Bindings} {s' top : Instance}
    {nodes : List Instance} (hs : U.Full s) (hσ : s.remap σ = .ok s') (h : U.Path s nodes top) :
    ∃ nodes' top', U.Path s' nodes' top' ∧ top.remap σ = .ok top' ∧
      nodes'.map (·.nullable) = nodes.map (·.nullable) := by
  induction h generalizing s' with
  | here s =>
    obtain ⟨args, _, rfl⟩ := Instance.remap_eq_ok_iff.mp hσ
    exact ⟨_, _, .here _, hσ, rfl⟩
  | @up s t u nodes hop hpath ih =>
    obtain ⟨i, hi, hr⟩ := hop
    obtain ⟨_, t', hr', hσ', hup⟩ := hU.coherent.remap_level hs hσ hi
    rw [hr] at hr'
    cases hr'
    obtain ⟨nodes', top', hpath', htop, hnull⟩ := ih ((hU.full hi).remap hr) hσ'
    obtain ⟨args, _, rfl⟩ := Instance.remap_eq_ok_iff.mp hσ
    refine ⟨_, top', .up ⟨i, hi, hup⟩ hpath', htop, ?_⟩
    rw [List.map_cons, List.map_cons, hnull]

theorem fits_remap (hU : U.Bounded) {σ : Bindings} {source source' : Instance}
    (hσ : U.AdmitsArgs σ) (hta : U.AdmitsArgs target.args) (hsa : U.AdmitsArgs source.args)
    (hs : U.Full source) (ht' : target.remap σ = .ok target') (hs' : source.remap σ = .ok source')
    (h : U.Fits target source) : U.Fits target' source' := by
  obtain ⟨nodes, found, hpath, hfound, hargs, hnodes⟩ := h
  obtain ⟨nodes', found', hpath', hfound', hnull⟩ := hU.exists_path_remap hs hs' hpath
  have hfa : U.AdmitsArgs found.args :=
    hpath.forall_mem (P := fun n => U.AdmitsArgs n.args) hsa
      (fun _ _ hop ha => hU.coherent.admitsArgs_of_hop ha hop) found hpath.end_mem
  obtain ⟨targs, htargs, rfl⟩ := Instance.remap_eq_ok_iff.mp ht'
  obtain ⟨fargs, hfargs, rfl⟩ := Instance.remap_eq_ok_iff.mp hfound'
  refine ⟨nodes', _, hpath', hfound, hta.sameAs_remap hfa hσ hargs htargs hfargs, fun htn n hn => ?_⟩
  have hn : n.nullable ∈ nodes.map (·.nullable) := hnull ▸ List.mem_map_of_mem hn
  obtain ⟨m, hm, hnm⟩ := List.mem_map.mp hn
  rw [← hnm]
  exact hnodes htn m hm

/-! ## References that fit -/

theorem mentions (hU : U.Bounded) (hs : U.Sturdy s) {t : TypeExpr}
    (ht : t ∈ (U.body s.definition).types) : U.Mentions s t where
  admits := hU.coherent.admits_of_mem_types ht
  proper := hU.proper _ t ht
  binds _ hv := hs.full.binds (hU.coherent.declares_of_mem_types ht hv)

/-- If `a` goes on to fit the instances that it fits, it goes on to fit all types that it fits. -/
theorem fitsExpr_instantiate_of (hs : U.Sturdy s) (hne : s.args ≠ []) {t a t' a' : TypeExpr}
    (ht : U.Admits t) (ha : U.Admits a) (ht' : t.instantiate s.args = .ok t')
    (ha' : a.instantiate s.args = .ok a')
    (hinst : ∀ target target', U.AdmitsArgs target.args → target.remap s.args = .ok target' →
      U.FitsInstance target a → U.FitsInstance target' a')
    (h : U.FitsExpr t a) : U.FitsExpr t' a' := by
  have hargs := hs.admitsArgs
  cases t with
  | inst d args n =>
    rw [← TypeExpr.substitute_of_ne_nil hne] at ht'
    obtain ⟨target', hr, rfl⟩ := Instance.substitute_toExpr (i := ⟨d, args, n⟩).mp ht'
    have hta := (admits_toExpr (i := ⟨d, args, n⟩).mp ht).2
    exact hinst _ _ hta hr h
  | var x b n =>
    cases a with
    | inst e bs m => exact absurd h id
    | var y c m =>
      obtain ⟨rfl, hnull⟩ := h
      obtain ⟨argument, hx, rfl⟩ := TypeExpr.instantiate_var_eq_ok_iff.mp ht'
      obtain ⟨argument', hx', rfl⟩ := TypeExpr.instantiate_var_eq_ok_iff.mp ha'
      obtain rfl := Option.some.inj (hx.symm.trans hx')
      exact fitsExpr_nullable (hargs.2 _ (Bindings.mem_of_type? hx)) hnull
    | fn qs r => exact absurd h id
  | fn ps r =>
    cases a with
    | inst e bs m => exact absurd h id
    | var y c m => exact absurd h id
    | fn qs q =>
      have hrefl := Bindings.sameAs_refl hargs.1 hargs.distinct
      obtain ⟨u, hu, hsame⟩ := TypeExpr.instantiate_congr ht.distinct ha.distinct h hrefl ht'
      rw [ha'] at hu
      cases hu
      obtain ⟨_, _, _, _, rfl⟩ := TypeExpr.instantiate_fn_eq_ok_iff.mp ht'
      obtain ⟨_, _, _, _, rfl⟩ := TypeExpr.instantiate_fn_eq_ok_iff.mp ha'
      exact hsame

/-- References to one variable are replaced by one and the same type. -/
theorem refines_instantiate (hs : U.Sturdy s) {t a t' a' : TypeExpr}
    (ht' : t.instantiate s.args = .ok t') (ha' : a.instantiate s.args = .ok a')
    (h : U.FitsExpr t a) : U.Refines t' a' := by
  cases t with
  | inst d args n =>
    obtain ⟨_, _, rfl⟩ := TypeExpr.instantiate_inst_eq_ok_iff.mp ht'
    exact refines_inst_left
  | var x b n =>
    cases a with
    | inst e bs m => exact absurd h id
    | var y c m =>
      obtain ⟨rfl, _⟩ := h
      obtain ⟨argument, hx, rfl⟩ := TypeExpr.instantiate_var_eq_ok_iff.mp ht'
      obtain ⟨argument', hx', rfl⟩ := TypeExpr.instantiate_var_eq_ok_iff.mp ha'
      obtain rfl := Option.some.inj (hx.symm.trans hx')
      exact (refines_refl (hs.admitsArgs.2 _ (Bindings.mem_of_type? hx))).nullable n m
    | fn qs r => exact absurd h id
  | fn ps r =>
    obtain ⟨_, _, _, _, rfl⟩ := TypeExpr.instantiate_fn_eq_ok_iff.mp ht'
    exact refines_fn_left

/-- A reference fits through its bound, which the declared bound fits, which the argument that comes
in its place fits. -/
theorem fitsInstance_instantiate (hU : U.Bounded) (hs : U.Sturdy s) (hne : s.args ≠ [])
    {a : TypeExpr} (hw : U.Warranted (U.parameters s.definition) a) (hm : U.Mentions s a)
    {a' : TypeExpr} (ha' : a.instantiate s.args = .ok a') (hta : U.AdmitsArgs target.args)
    (ht' : target.remap s.args = .ok target') (h : U.FitsInstance target a) :
    U.FitsInstance target' a' := by
  have hargs := hs.admitsArgs
  induction hw generalizing a' target target' with
  | @inst d args n =>
    rw [← TypeExpr.substitute_of_ne_nil hne] at ha'
    obtain ⟨source', hs', rfl⟩ := Instance.substitute_toExpr (i := ⟨d, args, n⟩).mp ha'
    have hfull : U.Full ⟨d, args, n⟩ := (TypeExpr.all_inst.mp hm.proper).1.full
    have hsa := (admits_toExpr (i := ⟨d, args, n⟩).mp hm.admits).2
    exact hU.fits_remap hargs hta hsa hfull ht' hs' h
  | var => exact absurd h id
  | @bounded p declared b n hp hbound hfits _ _ ihd ihb =>
    obtain ⟨hnull, hb⟩ := h
    obtain ⟨argument, hargument, rfl⟩ := TypeExpr.instantiate_var_eq_ok_iff.mp ha'
    have hmd := hU.mentions hs (Body.mem_types_iff.mpr (.inl ⟨p, hp, hbound⟩))
    have hmb := hm.bounded
    obtain ⟨declared', hd'⟩ := hmd.exists_instantiate
    obtain ⟨b', hb'⟩ := hmb.exists_instantiate
    have hinb := ihb hmb hb' hta ht' hb
    have hbd : U.FitsExpr b' declared' := fitsExpr_instantiate_of hs hne hmb.admits hmd.admits hb'
      hd' (fun _ _ hta ht' h => ihd hmd hd' hta ht' h) hfits
    have hind := hU.coherent.fitsInstance_trans hinb hbd (refines_instantiate hs hb' hd' hfits)
    rw [← TypeExpr.substitute_of_ne_nil hne] at hd'
    have hda := hs.proper_self.2 p hp declared hbound declared' hd' argument hargument
    have htight := hs.tight p hp declared hbound declared' hd' argument hargument
    have hina := hU.coherent.fitsInstance_trans hind hda htight
    have haa : U.Admits argument := hargs.2 _ (Bindings.mem_of_type? hargument)
    obtain ⟨_, _, rfl⟩ := Instance.remap_eq_ok_iff.mp ht'
    cases n with
    | false => exact hina
    | true => exact hU.coherent.fitsInstance_toNullable (hnull rfl) haa hina
  | fn => exact absurd h id

theorem fitsExpr_instantiate (hU : U.Bounded) (hs : U.Sturdy s) (hne : s.args ≠ [])
    {t a t' a' : TypeExpr} (ht : U.Admits t) (hw : U.Warranted (U.parameters s.definition) a)
    (hm : U.Mentions s a) (ht' : t.instantiate s.args = .ok t') (ha' : a.instantiate s.args = .ok a')
    (h : U.FitsExpr t a) : U.FitsExpr t' a' :=
  fitsExpr_instantiate_of hs hne ht hm.admits ht' ha'
    (fun _ _ hta hr h => hU.fitsInstance_instantiate hs hne hw hm ha' hta hr h) h

/-! ## Declared types -/

/-- The bound of an argument after substitution is that before it with the arguments of `s` put in,
and so is the argument. -/
theorem exists_before (hU : U.Bounded) (hne : s.args ≠ []) {i : Instance}
    (hm : U.Mentions s i.toExpr) {args : Bindings}
    (h : TypeExpr.instantiateEach s.args i.args = .ok args) {p : Parameter}
    (hp : p ∈ U.parameters i.definition) {declared : TypeExpr} (hdeclared : p.bound = some declared)
    {bound argument : TypeExpr} (hbound : declared.substitute args = .ok bound)
    (hargument : args.type? p.name = some argument) :
    ∃ before, ∃ e ∈ i.args, U.Admits before ∧ U.FitsExpr before e.2 ∧
      before.instantiate s.args = .ok bound ∧ e.2.instantiate s.args = .ok argument := by
  have hproper := (TypeExpr.all_inst.mp hm.proper).1
  have hadmits := (admits_toExpr.mp hm.admits).2
  have hremap : i.remap s.args = .ok { i with args } := by
    rw [Instance.remap_eq_ok_iff]
    exact ⟨args, by rw [Bindings.remap_of_ne_nil hne, h], rfl⟩
  obtain ⟨before, after, hbefore, hafter, hsub⟩ :=
    hU.coherent.substitute_level (Proper.full hproper) hremap
      (Body.mem_types_iff.mpr (.inl ⟨p, hp, hdeclared⟩))
  obtain rfl : after = bound := Except.ok.inj (hsub.symm.trans hbound)
  rw [TypeExpr.substitute_of_ne_nil hne] at hafter
  obtain ⟨earlier, hearlier⟩ := Option.isSome_iff_exists.mp (Proper.full hproper p hp)
  obtain ⟨later, hlater, hinst⟩ := TypeExpr.type?_instantiateEach h hearlier
  obtain rfl : later = argument := Option.some.inj (hlater.symm.trans hargument)
  have hab : U.Admits before :=
    (hU.coherent.admits_of_bound hp hdeclared).substitute hadmits.2 hbefore
  have hfits := hproper.2 p hp declared hdeclared before hbefore earlier hearlier
  exact ⟨before, _, Bindings.mem_of_type? hearlier, hab, hfits, hafter, hinst⟩

theorem withinBounds_instantiate (hU : U.Bounded) (hs : U.Sturdy s) (hne : s.args ≠ [])
    {i : Instance} (hm : U.Mentions s i.toExpr)
    (hw : ∀ e ∈ i.args, U.Warranted (U.parameters s.definition) e.2) {args : Bindings}
    (h : TypeExpr.instantiateEach s.args i.args = .ok args) : U.WithinBounds i.definition args := by
  intro p hp declared hdeclared bound hbound argument hargument
  obtain ⟨before, e, he, hadmits, hfits, hafter, hinst⟩ :=
    hU.exists_before hne hm h hp hdeclared hbound hargument
  exact hU.fitsExpr_instantiate hs hne hadmits (hw e he) (hm.args e he) hafter hinst hfits

theorem tight_instantiate (hU : U.Bounded) (hs : U.Sturdy s) (hne : s.args ≠ []) {i : Instance}
    (hm : U.Mentions s i.toExpr) {args : Bindings}
    (h : TypeExpr.instantiateEach s.args i.args = .ok args) : U.Tight i.definition args := by
  intro p hp declared hdeclared bound hbound argument hargument
  obtain ⟨before, e, _, _, hfits, hafter, hinst⟩ :=
    hU.exists_before hne hm h hp hdeclared hbound hargument
  exact refines_instantiate hs hafter hinst hfits

theorem proper_instantiate (hU : U.Bounded) (hs : U.Sturdy s) (hne : s.args ≠ []) {t r : TypeExpr}
    (hm : U.Mentions s t)
    (hw : t.All fun _ args => ∀ e ∈ args, U.Warranted (U.parameters s.definition) e.2)
    (h : t.instantiate s.args = .ok r) : r.All U.Proper := by
  have each {types results : List (String × TypeExpr)}
      (ih : ∀ e ∈ types, ∀ r, e.2.instantiate s.args = .ok r → r.All U.Proper)
      (h : TypeExpr.instantiateEach s.args types = .ok results) : ∀ f ∈ results, f.2.All U.Proper := by
    intro f hmem
    obtain ⟨e, he, _, hef⟩ := TypeExpr.exists_of_mem_instantiateEach h hmem
    exact ih e he _ hef
  induction t using TypeExpr.inductOutsideBounds generalizing r with
  | inst d args n ih =>
    obtain ⟨args', hargs', rfl⟩ := TypeExpr.instantiate_inst_eq_ok_iff.mp h
    obtain ⟨hwself, hwargs⟩ := TypeExpr.all_inst.mp hw
    have hexact : U.Exact d (args'.map (·.1)) := by
      rw [TypeExpr.instantiateEach_names hargs']
      exact (TypeExpr.all_inst.mp hm.proper).1.1
    have hwithin := hU.withinBounds_instantiate hs hne (i := ⟨d, args, n⟩) hm hwself hargs'
    refine TypeExpr.all_inst.mpr ⟨⟨hexact, hwithin⟩, each ?_ hargs'⟩
    exact fun e he r hr => ih e he (hm.args e he) (hwargs e he) hr
  | var x b n =>
    obtain ⟨argument, hx, rfl⟩ := TypeExpr.instantiate_var_eq_ok_iff.mp h
    have hargument := hs.proper_args _ (Bindings.mem_of_type? hx)
    cases n with
    | false => exact hargument
    | true => exact TypeExpr.all_toNullable.mpr hargument
  | fn ps q ihp ihq =>
    obtain ⟨ps', q', hps, hq, rfl⟩ := TypeExpr.instantiate_fn_eq_ok_iff.mp h
    obtain ⟨hwps, hwq⟩ := TypeExpr.all_fn.mp hw
    refine TypeExpr.all_fn.mpr ⟨each ?_ hps, ihq hm.fn.2 hwq hq⟩
    exact fun e he r hr => ihp e he (hm.fn.1 e he) (hwps e he) hr

/-- A declared type, as seen from the arguments of `s`, mentions only instances within bounds. -/
theorem proper_substitute (hU : U.Bounded) (hs : U.Sturdy s) {t r : TypeExpr}
    (ht : t ∈ (U.body s.definition).types) (h : t.substitute s.args = .ok r) : r.All U.Proper := by
  by_cases hne : s.args = []
  · rw [hne, TypeExpr.substitute_nil] at h
    cases h
    exact hU.proper _ t ht
  · rw [TypeExpr.substitute_of_ne_nil hne] at h
    exact hU.proper_instantiate hs hne (hU.mentions hs ht)
      (hU.warranted _ hs.definition_mem t ht) h

/-! ## Levels above -/

/-- Without arguments there are no variables in the body, and so no references among the bounds. -/
theorem tight_hop (hU : U.Bounded) (hs : U.Sturdy s) (h : U.Hop s above) :
    U.Tight above.definition above.args := by
  obtain ⟨i, hi, hr⟩ := h
  have hmem := Body.supertype_mem_types hi
  obtain ⟨args, hargs, rfl⟩ := Instance.remap_eq_ok_iff.mp hr
  by_cases hne : s.args = []
  · rw [hne, Bindings.remap_nil] at hargs
    cases hargs
    have hnil := hU.coherent.references_eq_nil hs.full hne hmem
    rw [Instance.toExpr, TypeExpr.references, TypeExpr.referencesOfEach_eq_flatMap,
      List.flatMap_eq_nil_iff] at hnil
    intro p hp declared hdeclared bound hbound argument _
    have hdmem := Body.mem_types_iff.mpr (.inl ⟨p, hp, hdeclared⟩)
    exact refines_of_references
      (hU.coherent.references_substitute_eq_nil (hU.full hi) hnil hdmem hbound)
  · rw [Bindings.remap_of_ne_nil hne] at hargs
    exact hU.tight_instantiate hs hne (hU.mentions hs hmem) hargs

theorem sturdy_hop (hU : U.Bounded) (hs : U.Sturdy s) (h : U.Hop s above) : U.Sturdy above := by
  have htight := hU.tight_hop hs h
  obtain ⟨i, hi, hr⟩ := h
  have hmem := Body.supertype_mem_types hi
  have hadmits := hU.coherent.admits_of_mem_supertypes hi
  have hsub : i.toExpr.substitute s.args = .ok above.toExpr :=
    Instance.substitute_toExpr.mpr ⟨above, hr, rfl⟩
  exact ⟨hadmits.substitute hs.admitsArgs.2 hsub, hU.proper_substitute hs hmem hsub, htight⟩

theorem sturdy_of_path (hU : U.Bounded) (hs : U.Sturdy s) {nodes : List Instance} {top : Instance}
    (h : U.Path s nodes top) : U.Sturdy top :=
  h.forall_mem (P := U.Sturdy) hs (fun _ _ hab ha => hU.sturdy_hop ha hab) top h.end_mem

theorem proper_property (hU : U.Bounded) (hs : U.Sturdy s) {nodes : List Instance} {top : Instance}
    (h : Route U.ParentHop s nodes top) {p : String × TypeExpr}
    (hp : p ∈ U.properties top.definition) {type : TypeExpr}
    (hsub : p.2.substitute top.args = .ok type) : type.All U.Proper :=
  hU.proper_substitute (hU.sturdy_of_path hs (h.imp fun _ _ => ParentHop.hop))
    (Body.property_mem_types hp) hsub

end Bounded

end Universe

end NominalTypes
