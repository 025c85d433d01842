import NominalTypes.Proofs.Assignability

/-!
# When a type expression fits another

`Universe.FitsExpr` is what `Universe.acceptsExpr` finds out, without the search and its limit: an
instance fits along a supertype path, a variable through the bound that it carries.

* `Universe.Coherent.acceptsExpr_eq_iff`: any answer says whether one fits the other, and
  `Universe.acceptsExpr_eq_error` tells the ways to have no answer;
* `Universe.Unambiguous.fitsExpr_congr`: equal types accept the same;
* `Universe.fitsExpr_refl`, `Universe.Coherent.fitsInstance_trans`: an order, as long as references to
  one variable that meet in the middle do not lose in bounds (`Universe.Refines`);
* `Universe.Grows.fitsExpr`, `Universe.Grows.fitsExpr_of_closed`: later declarations make no
  difference to types of closed definitions.
-/

namespace NominalTypes

namespace Universe

/-! ## Fitting -/

/-- A variable fits an instance through its bound, unless its own nullability forbids it. -/
def FitsInstance (U : Universe) (target : Instance) : TypeExpr → Prop
  | .inst d args nullable => U.Fits target ⟨d, args, nullable⟩
  | .var _ none _ => False
  | .var _ (some bound) nullable =>
    (nullable = true → target.nullable = true) ∧ U.FitsInstance target bound
  | .fn _ _ => False

def FitsExpr (U : Universe) : (target source : TypeExpr) → Prop
  | .inst d args nullable, source => U.FitsInstance ⟨d, args, nullable⟩ source
  | .var x _ n, .var y _ m => x = y ∧ (m = true → n = true)
  | .fn ps r, .fn qs s => (TypeExpr.fn ps r).sameAs (.fn qs s) = true
  | _, _ => False

/-- A reference fits every reference to the same variable, whatever bounds the two carry.  It refines
the other if its bound fits that of the other, and so on where these are references in turn. -/
def Refines (U : Universe) : (target source : TypeExpr) → Prop
  | .var x (some b) _, .var y (some c) _ => x = y → U.FitsExpr b c ∧ U.Refines b c
  | .var x (some _) _, .var y none _ => x ≠ y
  | _, _ => True

variable {U V : Universe} {limit : Nat} {target source : Instance} {t u : TypeExpr}

/-! ## What the search finds out -/

theorem Coherent.instanceAccepts_eq_iff (hU : U.Coherent) (hu : U.Unambiguous)
    (ht : target.definition ∈ U.definitions) {source : TypeExpr} (hs : U.Admits source)
    {answer : Bool} (h : U.instanceAccepts limit target source = .ok answer) :
    answer = true ↔ U.FitsInstance target source := by
  induction source with
  | inst d args n =>
    have hd : d ∈ U.definitions := (admits_toExpr (i := ⟨d, args, n⟩).mp hs).1
    exact hU.accepts_eq_iff hu ht hd h
  | var x n =>
    cases h
    simp [FitsInstance]
  | bounded x b n ih =>
    rw [instanceAccepts] at h
    rw [FitsInstance]
    split at h
    · next hn =>
      cases h
      rw [Bool.and_eq_true, Bool.not_eq_true'] at hn
      simp [hn.1, hn.2]
    · next hn =>
      rw [ih (TypeExpr.everywhere_bounded.mp hs) h]
      have hnull : n = true → target.nullable = true := by simpa using hn
      exact (and_iff_right hnull).symm
  | fn ps r _ _ =>
    cases h
    simp [FitsInstance]

theorem Coherent.acceptsExpr_eq_iff (hU : U.Coherent) (hu : U.Unambiguous) (ht : U.Admits t)
    (hs : U.Admits u) {answer : Bool} (h : U.acceptsExpr limit t u = .ok answer) :
    answer = true ↔ U.FitsExpr t u := by
  cases t with
  | inst d args n =>
    have hd : d ∈ U.definitions := (admits_toExpr (i := ⟨d, args, n⟩).mp ht).1
    exact hU.instanceAccepts_eq_iff hu hd hs h
  | var x b n =>
    cases u with
    | inst d args m =>
      cases h
      simp [FitsExpr]
    | var y c m =>
      cases h
      exact Variable.accepts_iff
    | fn qs s =>
      cases h
      simp [FitsExpr]
  | fn ps r =>
    cases u with
    | inst d args m =>
      cases h
      simp [FitsExpr]
    | var y c m =>
      cases h
      simp [FitsExpr]
    | fn qs s =>
      cases h
      rw [FitsExpr, TypeExpr.sameAs, TypeExpr.signatureAccepts]

/-- Without an answer the search came to its limit or to a level where an argument is missing. -/
theorem acceptsExpr_eq_error {f : Fault} (h : U.acceptsExpr limit t u = .error f) :
    (∃ activity, f = .recursionLimit limit activity) ∨ ∃ x, f = .unboundParameter x := by
  have search {target source : Instance} (h : U.accepts limit target source = .error f) :
      (∃ activity, f = .recursionLimit limit activity) ∨ ∃ x, f = .unboundParameter x := by
    obtain ⟨_, _, _, ⟨hf, _⟩ | ⟨i, _, hr⟩⟩ := acceptsFrom_eq_error h
    · exact .inl ⟨_, hf⟩
    · rw [Instance.remap, bind_eq_error_iff] at hr
      rcases hr with hr | ⟨_, _, hr⟩
      · exact .inr (Bindings.remap_eq_error hr)
      · cases hr
  cases t with
  | inst d args n =>
    rw [acceptsExpr] at h
    induction u with
    | inst e bs m => exact search h
    | var y m => cases h
    | bounded y c m ih =>
      rw [instanceAccepts] at h
      split at h
      · cases h
      · exact ih h
    | fn qs s _ _ => cases h
  | var x b n => cases u <;> cases h
  | fn ps r => cases u <;> cases h

/-! ## Equal types -/

theorem Unambiguous.sameAs_inst (hu : U.Unambiguous) {d e : Definition} {as bs : Bindings}
    {n m : Bool} (ht : U.Admits (.inst d as n)) (ht' : U.Admits (.inst e bs m))
    (h : (TypeExpr.inst d as n).sameAs (.inst e bs m) = true) :
    d = e ∧ n = m ∧ as.sameAs bs = true := by
  obtain ⟨hn, hd, hargs⟩ := TypeExpr.sameAs_inst_iff.mp h
  have hd' := (admits_toExpr (i := ⟨d, as, n⟩).mp ht).1
  have he' := (admits_toExpr (i := ⟨e, bs, m⟩).mp ht').1
  exact ⟨hu.eq_of_sameAs hd' he' hd, hn, hargs⟩

theorem Fits.congr_target {target' : Instance} (h : U.Fits target source)
    (hd : target'.definition = target.definition)
    (hn : target.nullable = true → target'.nullable = true)
    (hargs : target'.args.sameAs target.args = true) : U.Fits target' source := by
  obtain ⟨nodes, found, hpath, hfound, hsame, hnodes⟩ := h
  refine ⟨nodes, found, hpath, hfound.trans hd.symm, Bindings.sameAs_trans hargs hsame, ?_⟩
  intro hn'
  refine hnodes ?_
  cases ht : target.nullable with
  | false => rfl
  | true =>
    rw [hn ht] at hn'
    cases hn'

theorem Coherent.fits_congr_source (hU : U.Coherent) {source' : Instance}
    (h : U.Fits target source) (hd : source'.definition = source.definition)
    (hn : target.nullable = false → source.nullable = false → source'.nullable = false)
    (hargs : source.args.sameAs source'.args = true) :
    U.Fits target source' := by
  obtain ⟨nodes, found, hpath, hfound, hsame, hnodes⟩ := h
  obtain ⟨nodes', found', hpath', hd', hargs', hnull⟩ := hU.exists_path hd hargs hpath
  refine ⟨nodes', found', hpath', hd'.trans hfound, Bindings.sameAs_trans hsame hargs', ?_⟩
  intro htn
  have hall := hnodes htn
  exact hnull (hn htn (hall source hpath.start_mem)) hall

theorem FitsInstance.congr_target {target' : Instance} (h : U.FitsInstance target u)
    (hd : target'.definition = target.definition)
    (hn : target.nullable = true → target'.nullable = true)
    (hargs : target'.args.sameAs target.args = true) : U.FitsInstance target' u := by
  induction u with
  | inst d args m => exact Fits.congr_target h hd hn hargs
  | var x m => exact h
  | bounded x b m ih => exact ⟨fun hm => hn (h.1 hm), ih h.2⟩
  | fn qs s _ _ => exact h

theorem Unambiguous.fitsExpr_congr (hu : U.Unambiguous) {t' : TypeExpr} (ht : U.Admits t)
    (ht' : U.Admits t') (h : t'.sameAs t = true) (hfits : U.FitsExpr t u) : U.FitsExpr t' u := by
  cases t' with
  | inst d' as' n' =>
    cases t with
    | inst d as n =>
      obtain ⟨hd, hn, hargs⟩ := hu.sameAs_inst ht' ht h
      have hinstance : U.FitsInstance ⟨d, as, n⟩ u := hfits
      exact hinstance.congr_target hd (fun htrue => hn.trans htrue) hargs
    | var x b n => simp [TypeExpr.sameAs] at h
    | fn ps r => simp [TypeExpr.sameAs] at h
  | var x' b' n' =>
    cases t with
    | inst d as n => simp [TypeExpr.sameAs] at h
    | var x b n =>
      simp only [TypeExpr.sameAs, Bool.and_eq_true, beq_iff_eq] at h
      obtain ⟨rfl, rfl⟩ := h
      cases u <;> exact hfits
    | fn ps r => simp [TypeExpr.sameAs] at h
  | fn ps' r' =>
    cases t with
    | inst d as n => simp [TypeExpr.sameAs] at h
    | var x b n => simp [TypeExpr.sameAs] at h
    | fn ps r =>
      cases u with
      | inst e bs m => exact hfits
      | var y c m => exact hfits
      | fn qs s => exact TypeExpr.sameAs_trans h hfits

/-! ## Nullability -/

theorem Coherent.fitsInstance_toNullable (hU : U.Coherent) (hn : target.nullable = true)
    (hs : U.Admits u) (h : U.FitsInstance target u) : U.FitsInstance target u.toNullable := by
  cases u with
  | inst d args m =>
    have hargs := (admits_toExpr (i := ⟨d, args, m⟩).mp hs).2
    have hrefl := Bindings.sameAs_refl hargs.1 hargs.distinct
    have hfits : U.Fits target ⟨d, args, m⟩ := h
    refine hU.fits_congr_source hfits rfl (fun htn => ?_) hrefl
    rw [hn] at htn
    cases htn
  | var x b m =>
    cases b with
    | none => exact h
    | some b => exact ⟨fun _ => hn, h.2⟩
  | fn qs s => exact h

theorem fitsExpr_toNullable (ht : U.Admits t) (h : U.FitsExpr t u) :
    U.FitsExpr t.toNullable u := by
  cases t with
  | inst d args n =>
    have hargs := (admits_toExpr (i := ⟨d, args, n⟩).mp ht).2
    have hrefl := Bindings.sameAs_refl hargs.1 hargs.distinct
    have hinstance : U.FitsInstance ⟨d, args, n⟩ u := h
    exact hinstance.congr_target rfl (fun _ => rfl) hrefl
  | var x b n =>
    cases u with
    | inst e bs m => exact h
    | var y c m => exact ⟨h.1, fun _ => rfl⟩
    | fn qs s => exact h
  | fn ps r => exact h

/-! ## Order -/

theorem fitsExpr_refl (ht : U.Admits t) : U.FitsExpr t t := by
  cases t with
  | inst d args n =>
    have hargs := (admits_toExpr (i := ⟨d, args, n⟩).mp ht).2
    have hrefl := Bindings.sameAs_refl hargs.1 hargs.distinct
    exact ⟨_, _, .here _, rfl, hrefl, fun hn => List.forall_mem_singleton.mpr hn⟩
  | var x b n => exact ⟨rfl, id⟩
  | fn ps r => exact TypeExpr.sameAs_refl ht.distinct

/-- A type and its nullable form, as long as nullability widens. -/
theorem fitsExpr_nullable (ht : U.Admits t) {n m : Bool} (h : m = true → n = true) :
    U.FitsExpr (if n then t.toNullable else t) (if m then t.toNullable else t) := by
  cases n with
  | false =>
    cases m with
    | false => exact fitsExpr_refl ht
    | true => cases h rfl
  | true =>
    cases m with
    | false => exact fitsExpr_toNullable ht (fitsExpr_refl ht)
    | true => exact fitsExpr_refl (TypeExpr.everywhere_toNullable.mpr ht)

theorem Fits.nullable (h : U.Fits target source) (hn : source.nullable = true) :
    target.nullable = true := by
  obtain ⟨nodes, found, hpath, _, _, hnodes⟩ := h
  cases ht : target.nullable with
  | true => rfl
  | false =>
    rw [hnodes ht source hpath.start_mem] at hn
    cases hn

theorem Coherent.fitsInstance_of_fits (hU : U.Coherent) {middle : Instance}
    (h : U.Fits target middle) (hu : U.FitsInstance middle u) : U.FitsInstance target u := by
  induction u with
  | inst d args n => exact hU.fits_trans h hu
  | var x n => exact hu
  | bounded x b n ih => exact ⟨fun hn => h.nullable (hu.1 hn), ih hu.2⟩
  | fn qs s _ _ => exact hu

/-- A reference fits through its own bound, also where it stands in for another reference. -/
theorem Coherent.fitsInstance_trans (hU : U.Coherent) (h : U.FitsInstance target t)
    (h' : U.FitsExpr t u) (hr : U.Refines t u) : U.FitsInstance target u := by
  induction t generalizing u with
  | inst d args n => exact hU.fitsInstance_of_fits h h'
  | var x n => exact absurd h id
  | bounded x b n ih =>
    cases u with
    | inst e bs m => exact absurd h' id
    | var y c m =>
      obtain ⟨rfl, hnull⟩ := h'
      cases c with
      | none => exact absurd rfl hr
      | some c =>
        obtain ⟨hfits, hrefines⟩ := hr rfl
        exact ⟨fun hm => h.1 (hnull hm), ih h.2 hfits hrefines⟩
    | fn qs s => exact absurd h' id
  | fn ps r _ _ => exact absurd h id

/-! ## Refinement -/

@[simp] theorem refines_inst_left {d : Definition} {args : Bindings} {n : Bool} :
    U.Refines (.inst d args n) u := by
  cases u <;> exact trivial

@[simp] theorem refines_fn_left {ps : List (String × TypeExpr)} {r : TypeExpr} :
    U.Refines (.fn ps r) u := by
  cases u <;> exact trivial

theorem refines_of_references (h : t.references = []) : U.Refines t u := by
  cases t with
  | inst d args n => exact refines_inst_left
  | var x b n => cases b <;> cases h
  | fn ps r => exact refines_fn_left

theorem refines_refl (ht : U.Admits t) : U.Refines t t := by
  induction t with
  | inst d args n _ => exact trivial
  | var x n => exact trivial
  | bounded x b n ih =>
    have hb := TypeExpr.everywhere_bounded.mp ht
    exact fun _ => ⟨fitsExpr_refl hb, ih hb⟩
  | fn ps r _ _ => exact trivial

@[simp] theorem refines_toNullable_left : U.Refines t.toNullable u ↔ U.Refines t u := by
  rcases t with _ | ⟨x, _ | b, n⟩ | _ <;> rcases u with _ | ⟨y, _ | c, m⟩ | _ <;> exact Iff.rfl

@[simp] theorem refines_toNullable_right : U.Refines t u.toNullable ↔ U.Refines t u := by
  rcases t with _ | ⟨x, _ | b, n⟩ | _ <;> rcases u with _ | ⟨y, _ | c, m⟩ | _ <;> exact Iff.rfl

/-- Nullability plays no part. -/
theorem Refines.nullable (h : U.Refines t u) (n m : Bool) :
    U.Refines (if n then t.toNullable else t) (if m then u.toNullable else u) := by
  cases n <;> cases m <;> simpa using h

/-! ## Growth -/

theorem Grows.supertypes (h : U.Grows V) {d : Definition} {i : Instance}
    (hi : i ∈ U.supertypes d) : i ∈ V.supertypes d := by
  cases hd : U.body? d with
  | none => simp [Universe.supertypes, Universe.body, hd, Body.supertypes] at hi
  | some b =>
    have hclosed : U.isClosed d = true := by rw [Universe.isClosed, hd, Option.isSome_some]
    rwa [Universe.supertypes, h.body hclosed]

theorem Grows.fits (h : U.Grows V) (hfits : U.Fits target source) : V.Fits target source := by
  obtain ⟨nodes, found, hpath, hrest⟩ := hfits
  refine ⟨nodes, found, hpath.imp ?_, hrest⟩
  rintro a b ⟨i, hi, hr⟩
  exact ⟨i, h.supertypes hi, hr⟩

/-- From a closed definition on nothing new comes into reach. -/
theorem Grows.path_of_closed (hU : U.Coherent) (h : U.Grows V) {nodes : List Instance}
    {top : Instance} (hs : U.isClosed source.definition = true) (hpath : V.Path source nodes top) :
    U.Path source nodes top := by
  induction hpath with
  | here s => exact .here s
  | @up s t u nodes hop _ ih =>
    obtain ⟨i, hi, hr⟩ := hop
    rw [Universe.supertypes, h.body hs] at hi
    have ht : U.isClosed t.definition = true := by
      rw [Instance.definition_remap hr]
      exact hU.closed_of_mem_supertypes hi
    exact .up ⟨i, hi, hr⟩ (ih ht)

theorem Grows.fitsExpr (h : U.Grows V) (hfits : U.FitsExpr t u) : V.FitsExpr t u := by
  cases t with
  | inst d args n =>
    induction u with
    | inst e bs m => exact h.fits hfits
    | var y m => exact hfits
    | bounded y c m ih => exact ⟨hfits.1, ih hfits.2⟩
    | fn qs s _ _ => exact hfits
  | var x b n => cases u <;> exact hfits
  | fn ps r => cases u <;> exact hfits

theorem Grows.fitsExpr_of_closed (hU : U.Coherent) (h : U.Grows V)
    (hs : u.All fun d _ => U.isClosed d = true) (hfits : V.FitsExpr t u) : U.FitsExpr t u := by
  cases t with
  | inst d args n =>
    induction u with
    | inst e bs m =>
      obtain ⟨nodes, found, hpath, hrest⟩ := hfits
      exact ⟨nodes, found, h.path_of_closed hU (TypeExpr.all_inst.mp hs).1 hpath, hrest⟩
    | var y m => exact hfits
    | bounded y c m ih => exact ⟨hfits.1, ih (TypeExpr.all_bounded.mp hs) hfits.2⟩
    | fn qs s _ _ => exact hfits
  | var x b n => cases u <;> exact hfits
  | fn ps r => cases u <;> exact hfits

theorem Refines.of_grows (hU : U.Coherent) (h : U.Grows V)
    (hs : u.All fun d _ => U.isClosed d = true) (hr : V.Refines t u) : U.Refines t u := by
  induction t generalizing u with
  | inst d args n _ => exact refines_inst_left
  | var x n => cases u <;> exact trivial
  | bounded x b n ih =>
    cases u with
    | inst e bs m => exact trivial
    | var y c m =>
      cases c with
      | none => exact hr
      | some c =>
        intro hxy
        obtain ⟨hfits, hrefines⟩ := hr hxy
        have hc := TypeExpr.all_bounded.mp hs
        exact ⟨h.fitsExpr_of_closed hU hc hfits, ih hc hrefines⟩
    | fn qs s => exact trivial
  | fn ps r _ _ => exact refines_fn_left

end Universe

end NominalTypes
