import NominalTypes.Proofs.Equality
import NominalTypes.Proofs.Outcome
import NominalTypes.Substitution

/-!
# Laws of substitution

* `TypeExpr.exists_instantiate_iff`: substitution succeeds exactly when every variable outside
  bounds is bound, and `TypeExpr.instantiate_eq_error_iff` tells which variable is at fault if not;
* `TypeExpr.Everywhere.instantiate`: a condition on all instances survives, since substitution
  keeps definitions and the names of their arguments;
* `TypeExpr.instantiate_congr`: equal types under equal bindings give equal results.

`Bindings.remap` and `TypeExpr.substitute` are the same except that empty bindings change nothing,
and inherit each law.
-/

namespace NominalTypes

namespace TypeExpr

variable {σ τ : Bindings}

/-! ## Success, constructor by constructor -/

theorem instantiateEach_eq_ok_iff {types result : List (String × TypeExpr)} :
    instantiateEach σ types = .ok result ↔
      List.Forall₂ (fun e f => f.1 = e.1 ∧ e.2.instantiate σ = .ok f.2) types result := by
  induction types generalizing result with
  | nil => simp [instantiateEach, eq_comm]
  | cons e rest ih =>
    rw [instantiateEach, bind_eq_ok_iff, List.forall₂_cons_left_iff]
    constructor
    · rintro ⟨t, ht, h⟩
      obtain ⟨tail, htail, h⟩ := bind_eq_ok_iff.mp h
      cases h
      exact ⟨(e.1, t), tail, ⟨rfl, ht⟩, ih.mp htail, rfl⟩
    · rintro ⟨⟨name, t⟩, tail, ⟨rfl, ht⟩, htail, rfl⟩
      exact ⟨t, ht, bind_eq_ok_iff.mpr ⟨tail, ih.mpr htail, rfl⟩⟩

theorem instantiate_inst_eq_ok_iff {d : Definition} {args : Bindings} {n : Bool} {r : TypeExpr} :
    (inst d args n).instantiate σ = .ok r ↔
      ∃ args', instantiateEach σ args = .ok args' ∧ r = inst d args' n := by
  rw [instantiate, bind_eq_ok_iff]
  simp only [pure_eq_ok, Except.ok.injEq, eq_comm]

theorem instantiate_var_eq_ok_iff {x : String} {b : Option TypeExpr} {n : Bool} {r : TypeExpr} :
    (var x b n).instantiate σ = .ok r ↔
      ∃ t, σ.type? x = some t ∧ r = if n then t.toNullable else t := by
  rw [instantiate, bind_eq_ok_iff, Bindings.resolve]
  cases σ.type? x <;> simp [pure_eq_ok, eq_comm]

theorem instantiate_fn_eq_ok_iff {ps : List (String × TypeExpr)} {s r : TypeExpr} :
    (fn ps s).instantiate σ = .ok r ↔
      ∃ ps' s', instantiateEach σ ps = .ok ps' ∧ s.instantiate σ = .ok s' ∧ r = fn ps' s' := by
  rw [instantiate, bind_eq_ok_iff]
  simp only [bind_eq_ok_iff, pure_eq_ok, Except.ok.injEq]
  constructor
  · rintro ⟨ps', hps, s', hs, rfl⟩
    exact ⟨ps', s', hps, hs, rfl⟩
  · rintro ⟨ps', s', hps, hs, rfl⟩
    exact ⟨ps', hps, s', hs, rfl⟩

theorem instantiateEach_names {types result : List (String × TypeExpr)}
    (h : instantiateEach σ types = .ok result) : result.map (·.1) = types.map (·.1) := by
  replace h := instantiateEach_eq_ok_iff.mp h
  induction h with
  | nil => rfl
  | cons hef _ ih => rw [List.map_cons, List.map_cons, hef.1, ih]

theorem type?_instantiateEach {types result : List (String × TypeExpr)}
    (h : instantiateEach σ types = .ok result) {p : String} {t : TypeExpr}
    (ht : Bindings.type? types p = some t) :
    ∃ u, Bindings.type? result p = some u ∧ t.instantiate σ = .ok u := by
  replace h := instantiateEach_eq_ok_iff.mp h
  induction h with
  | nil => cases ht
  | @cons e f _ _ hef _ ih =>
    rw [Bindings.type?_cons] at ht ⊢
    rw [hef.1]
    by_cases hp : p = e.1
    · rw [if_pos hp] at ht ⊢
      cases ht
      exact ⟨f.2, rfl, hef.2⟩
    · rw [if_neg hp] at ht ⊢
      exact ih ht

theorem exists_of_mem_instantiateEach {types result : List (String × TypeExpr)}
    (h : instantiateEach σ types = .ok result) {f : String × TypeExpr} (hf : f ∈ result) :
    ∃ e ∈ types, f.1 = e.1 ∧ e.2.instantiate σ = .ok f.2 := by
  replace h := instantiateEach_eq_ok_iff.mp h
  induction h with
  | nil => cases hf
  | @cons e _ _ _ hef _ ih =>
    rcases List.mem_cons.mp hf with rfl | hf
    · exact ⟨e, List.mem_cons_self, hef⟩
    · obtain ⟨e', he', h⟩ := ih hf
      exact ⟨e', List.mem_cons_of_mem e he', h⟩

/-! ## When substitution succeeds -/

theorem exists_instantiateEach_iff {types : List (String × TypeExpr)} :
    (∃ r, instantiateEach σ types = .ok r) ↔ ∀ e ∈ types, ∃ r, e.2.instantiate σ = .ok r := by
  simp only [instantiateEach_eq_ok_iff]
  induction types with
  | nil => simp
  | cons e rest ih =>
    rw [List.forall_mem_cons, ← ih]
    constructor
    · rintro ⟨_, h⟩
      cases h with
      | cons hef h => exact ⟨⟨_, hef.2⟩, _, h⟩
    · rintro ⟨⟨t, ht⟩, tail, h⟩
      exact ⟨(e.1, t) :: tail, .cons ⟨rfl, ht⟩ h⟩

theorem exists_instantiate_iff {t : TypeExpr} :
    (∃ r, t.instantiate σ = .ok r) ↔ ∀ v ∈ t.occurrences, σ.binds v.name = true := by
  induction t using inductOutsideBounds with
  | inst d args n ih =>
    have each : (∃ r, (inst d args n).instantiate σ = .ok r) ↔
        ∃ r, instantiateEach σ args = .ok r := by
      simp [instantiate_inst_eq_ok_iff]
    rw [each, exists_instantiateEach_iff, occurrences, occurrencesOfEach_eq_flatMap]
    simp only [List.mem_flatMap]
    constructor
    · rintro h v ⟨e, he, hv⟩
      exact (ih e he).mp (h e he) v hv
    · intro h e he
      exact (ih e he).mpr fun v hv => h v ⟨e, he, hv⟩
  | var x b n =>
    simp [instantiate_var_eq_ok_iff, occurrences, Bindings.binds, Option.isSome_iff_exists]
  | fn ps s ihp ihs =>
    have both : (∃ r, (fn ps s).instantiate σ = .ok r) ↔
        (∃ r, instantiateEach σ ps = .ok r) ∧ ∃ r, s.instantiate σ = .ok r := by
      simp [instantiate_fn_eq_ok_iff]
    rw [both, exists_instantiateEach_iff, occurrences, occurrencesOfEach_eq_flatMap]
    simp only [List.mem_append, List.mem_flatMap]
    constructor
    · rintro ⟨hp, hs⟩ v (⟨e, he, hv⟩ | hv)
      · exact (ihp e he).mp (hp e he) v hv
      · exact ihs.mp hs v hv
    · intro h
      exact ⟨fun e he => (ihp e he).mpr fun v hv => h v (.inl ⟨e, he, hv⟩),
        ihs.mpr fun v hv => h v (.inr hv)⟩

theorem exists_instantiateEach_iff_binds {types : List (String × TypeExpr)} :
    (∃ r, instantiateEach σ types = .ok r) ↔
      ∀ v ∈ occurrencesOfEach types, σ.binds v.name = true := by
  simp only [exists_instantiateEach_iff, exists_instantiate_iff, occurrencesOfEach_eq_flatMap,
    List.mem_flatMap]
  constructor
  · rintro h v ⟨e, he, hv⟩
    exact h e he v hv
  · intro h e he v hv
    exact h v ⟨e, he, hv⟩

/-! ## Where substitution fails -/

/-- The first of the variables that has no binding. -/
def firstUnbound? (σ : Bindings) (vs : List Variable) : Option Variable :=
  vs.find? fun v => !σ.binds v.name

theorem firstUnbound?_eq_none_iff {vs : List Variable} :
    firstUnbound? σ vs = none ↔ ∀ v ∈ vs, σ.binds v.name = true := by
  simp [firstUnbound?]

theorem firstUnbound?_eq_some_iff {vs : List Variable} {v : Variable} :
    firstUnbound? σ vs = some v ↔ ∃ before after, vs = before ++ v :: after ∧
      (∀ w ∈ before, σ.binds w.name = true) ∧ σ.binds v.name = false := by
  rw [firstUnbound?, List.find?_eq_some_iff_append]
  simp only [Bool.not_not, Bool.not_eq_true']
  constructor
  · rintro ⟨hv, before, after, hsplit, hbefore⟩
    exact ⟨before, after, hsplit, hbefore, hv⟩
  · rintro ⟨before, after, hsplit, hbefore, hv⟩
    exact ⟨hv, before, after, hsplit, hbefore⟩

theorem firstUnbound?_append {vs ws : List Variable} {v : Variable} :
    firstUnbound? σ (vs ++ ws) = some v ↔
      firstUnbound? σ vs = some v ∨ firstUnbound? σ vs = none ∧ firstUnbound? σ ws = some v := by
  rw [firstUnbound?, List.find?_append, Option.or_eq_some_iff]
  rfl

/-- Bindings for the same parameters lack the same variable. -/
theorem firstUnbound?_congr (h : τ.map (·.1) = σ.map (·.1)) (vs : List Variable) :
    firstUnbound? τ vs = firstUnbound? σ vs := by
  have hbinds (x : String) : τ.binds x = σ.binds x := by
    rw [Bool.eq_iff_iff, Bindings.binds_iff, Bindings.binds_iff, h]
  simp only [firstUnbound?, hbinds]

theorem instantiateEach_of_unbound {types : List (String × TypeExpr)} {v : Variable}
    (ih : ∀ e ∈ types, firstUnbound? σ e.2.occurrences = some v →
      e.2.instantiate σ = .error (.unboundParameter v.name))
    (h : firstUnbound? σ (occurrencesOfEach types) = some v) :
    instantiateEach σ types = .error (.unboundParameter v.name) := by
  induction types with
  | nil => cases h
  | cons e rest ihrest =>
    obtain ⟨ihe, ih⟩ := List.forall_mem_cons.mp ih
    rw [instantiateEach]
    rcases firstUnbound?_append.mp h with he | ⟨he, hrest⟩
    · rw [ihe he]
      rfl
    · obtain ⟨t, ht⟩ := exists_instantiate_iff.mpr (firstUnbound?_eq_none_iff.mp he)
      rw [ht, ihrest ih hrest]
      rfl

/-- The fault is the first variable in reading order that has no binding. -/
theorem instantiate_of_unbound {t : TypeExpr} {v : Variable}
    (h : firstUnbound? σ t.occurrences = some v) :
    t.instantiate σ = .error (.unboundParameter v.name) := by
  induction t using inductOutsideBounds with
  | inst d args n ih =>
    rw [instantiate, instantiateEach_of_unbound ih h]
    rfl
  | var x b n =>
    have hx := List.find?_some h
    cases List.mem_singleton.mp (List.mem_of_find?_eq_some h)
    rw [Bool.not_eq_true', Bindings.binds, Option.isSome_eq_false_iff,
      Option.isNone_iff_eq_none] at hx
    rw [instantiate, Bindings.resolve, hx]
    rfl
  | fn ps s ihp ihs =>
    rw [instantiate]
    rcases firstUnbound?_append.mp h with hp | ⟨hp, hs⟩
    · rw [instantiateEach_of_unbound ihp hp]
      rfl
    · obtain ⟨ps', hps⟩ :=
        exists_instantiateEach_iff_binds.mpr (firstUnbound?_eq_none_iff.mp hp)
      rw [hps, ihs hs]
      rfl

theorem instantiateEach_eq_error_iff {types : List (String × TypeExpr)} {f : Fault} :
    instantiateEach σ types = .error f ↔
      ∃ v, firstUnbound? σ (occurrencesOfEach types) = some v ∧ f = .unboundParameter v.name := by
  cases hv : firstUnbound? σ (occurrencesOfEach types) with
  | none =>
    obtain ⟨r, hr⟩ := exists_instantiateEach_iff_binds.mpr (firstUnbound?_eq_none_iff.mp hv)
    simp [hr]
  | some v =>
    rw [instantiateEach_of_unbound (fun _ _ => instantiate_of_unbound) hv]
    simp [eq_comm]

/-- An unbound variable is the only fault of substitution. -/
theorem instantiate_eq_error_iff {t : TypeExpr} {f : Fault} :
    t.instantiate σ = .error f ↔
      ∃ v, firstUnbound? σ t.occurrences = some v ∧ f = .unboundParameter v.name := by
  cases hv : firstUnbound? σ t.occurrences with
  | none =>
    obtain ⟨r, hr⟩ := exists_instantiate_iff.mpr (firstUnbound?_eq_none_iff.mp hv)
    simp [hr]
  | some v =>
    rw [instantiate_of_unbound hv]
    simp [eq_comm]

/-! ## What substitution preserves -/

section Everywhere

variable {P : Definition → List String → Prop}

theorem everywhere_instantiateEach {types result : List (String × TypeExpr)}
    (ht : ∀ e ∈ types, ∀ r, e.2.instantiate σ = .ok r → r.Everywhere P)
    (h : instantiateEach σ types = .ok result) : ∀ e ∈ result, e.2.Everywhere P := by
  intro f hf
  obtain ⟨e, he, _, hef⟩ := exists_of_mem_instantiateEach h hf
  exact ht e he _ hef

theorem Everywhere.instantiate {t r : TypeExpr} (ht : t.Everywhere P)
    (hσ : ∀ e ∈ σ, e.2.Everywhere P) (h : t.instantiate σ = .ok r) : r.Everywhere P := by
  induction t using inductOutsideBounds generalizing r with
  | inst d args n ih =>
    obtain ⟨hd, hargs⟩ := everywhere_inst.mp ht
    obtain ⟨args', hargs', rfl⟩ := instantiate_inst_eq_ok_iff.mp h
    rw [everywhere_inst, instantiateEach_names hargs']
    exact ⟨hd, everywhere_instantiateEach (fun e he r => ih e he (hargs e he)) hargs'⟩
  | var x b n =>
    obtain ⟨t, ht, rfl⟩ := instantiate_var_eq_ok_iff.mp h
    have ht := hσ _ (Bindings.mem_of_type? ht)
    split
    · exact everywhere_toNullable.mpr ht
    · exact ht
  | fn ps s ihp ihs =>
    obtain ⟨hps, hs⟩ := everywhere_fn.mp ht
    obtain ⟨ps', s', hps', hs', rfl⟩ := instantiate_fn_eq_ok_iff.mp h
    refine everywhere_fn.mpr ⟨?_, ihs hs hs'⟩
    exact everywhere_instantiateEach (fun e he r => ihp e he (hps e he)) hps'

end Everywhere

/-! ## Equal types, equal bindings -/

theorem instantiateEach_congr_of {as bs rs : Bindings} (ha : (as.map (·.1)).Nodup)
    (hb : (bs.map (·.1)).Nodup)
    (ih : ∀ e ∈ as, ∀ f ∈ bs, e.2.sameAs f.2 = true → ∀ r, e.2.instantiate σ = .ok r →
      ∃ s, f.2.instantiate τ = .ok s ∧ r.sameAs s = true)
    (hab : as.sameAs bs = true) (h : instantiateEach σ as = .ok rs) :
    ∃ ss, instantiateEach τ bs = .ok ss ∧ Bindings.sameAs rs ss = true := by
  obtain ⟨hleft, hright⟩ := (Bindings.sameAs_iff_type? ha hb).mp hab
  have hsucceeds : ∀ f ∈ bs, ∃ s, f.2.instantiate τ = .ok s := by
    intro f hf
    obtain ⟨t, ht, htf⟩ := hright f.1 f.2 (Bindings.type?_of_mem hb hf)
    obtain ⟨r, _, hr⟩ := type?_instantiateEach h ht
    obtain ⟨s, hs, _⟩ := ih _ (Bindings.mem_of_type? ht) f hf htf r hr
    exact ⟨s, hs⟩
  obtain ⟨ss, hss⟩ := exists_instantiateEach_iff.mpr hsucceeds
  have hlen : rs.length = ss.length := by
    have hra := congrArg List.length (instantiateEach_names h)
    have hsb := congrArg List.length (instantiateEach_names hss)
    have hab := (Bindings.sameAs_iff.mp hab).1
    simp only [List.length_map] at hra hsb
    omega
  refine ⟨ss, hss, Bindings.sameAs_iff.mpr ⟨hlen, ?_⟩⟩
  intro x hx
  obtain ⟨e, he, hxe, her⟩ := exists_of_mem_instantiateEach h hx
  obtain ⟨u, hu, heu⟩ := hleft e.1 e.2 (Bindings.type?_of_mem ha he)
  obtain ⟨s, hs, hus⟩ := type?_instantiateEach hss hu
  obtain ⟨s', hs', hxs⟩ := ih e he _ (Bindings.mem_of_type? hu) heu x.2 her
  rw [hus] at hs'
  cases hs'
  rw [hxe]
  exact ⟨s, hs, hxs⟩

theorem instantiateParams_congr_of {ps qs ps' : List (String × TypeExpr)}
    (ih : ∀ e ∈ ps, ∀ f ∈ qs, e.2.sameAs f.2 = true → ∀ r, e.2.instantiate σ = .ok r →
      ∃ s, f.2.instantiate τ = .ok s ∧ r.sameAs s = true)
    (hpq : List.Forall₂ (fun p q => p.2.sameAs q.2 = true) ps qs)
    (h : instantiateEach σ ps = .ok ps') :
    ∃ qs', instantiateEach τ qs = .ok qs' ∧
      List.Forall₂ (fun p q => p.2.sameAs q.2 = true) ps' qs' := by
  rw [instantiateEach_eq_ok_iff] at h
  simp only [instantiateEach_eq_ok_iff]
  induction hpq generalizing ps' with
  | nil =>
    cases h
    exact ⟨[], .nil, .nil⟩
  | @cons p q ps qs hpq _ ihl =>
    cases h with
    | @cons _ r _ rs hr h =>
      obtain ⟨s, hs, hrs⟩ := ih p List.mem_cons_self q List.mem_cons_self hpq _ hr.2
      obtain ⟨ss, hss, hrss⟩ := ihl
        (fun e he f hf => ih e (List.mem_cons_of_mem p he) f (List.mem_cons_of_mem q hf)) h
      exact ⟨(q.1, s) :: ss, .cons ⟨rfl, hs⟩ hss, .cons hrs hrss⟩

theorem instantiate_var_congr {x : String} {b c : Option TypeExpr} {n : Bool} {r : TypeExpr}
    (hστ : σ.sameAs τ = true) (h : (var x b n).instantiate σ = .ok r) :
    ∃ s, (var x c n).instantiate τ = .ok s ∧ r.sameAs s = true := by
  obtain ⟨t, ht, rfl⟩ := instantiate_var_eq_ok_iff.mp h
  obtain ⟨u, hu, htu⟩ := (Bindings.sameAs_iff.mp hστ).2 _ (Bindings.mem_of_type? ht)
  refine ⟨_, instantiate_var_eq_ok_iff.mpr ⟨u, hu, rfl⟩, ?_⟩
  cases n with
  | false => exact htu
  | true => exact sameAs_toNullable htu

theorem instantiate_congr {t u r : TypeExpr} (ht : t.Distinct) (hu : u.Distinct)
    (htu : t.sameAs u = true) (hστ : σ.sameAs τ = true) (h : t.instantiate σ = .ok r) :
    ∃ s, u.instantiate τ = .ok s ∧ r.sameAs s = true := by
  induction t using inductOutsideBounds generalizing u r with
  | inst d as n ih =>
    cases u with
    | inst e bs m =>
      obtain ⟨hna, has⟩ := everywhere_inst.mp ht
      obtain ⟨hnb, hbs⟩ := everywhere_inst.mp hu
      obtain ⟨hnm, hde, hab⟩ := sameAs_inst_iff.mp htu
      obtain ⟨rs, hrs, rfl⟩ := instantiate_inst_eq_ok_iff.mp h
      obtain ⟨ss, hss, hrss⟩ := instantiateEach_congr_of hna hnb
        (fun x hx y hy hxy r => ih x hx (has x hx) (hbs y hy) hxy) hab hrs
      exact ⟨inst e ss m, instantiate_inst_eq_ok_iff.mpr ⟨ss, hss, rfl⟩,
        sameAs_inst_iff.mpr ⟨hnm, hde, hrss⟩⟩
    | var y b m => simp [sameAs] at htu
    | fn qs s => simp [sameAs] at htu
  | var x b n =>
    cases u with
    | inst e bs m => simp [sameAs] at htu
    | var y c m =>
      simp only [sameAs, Bool.and_eq_true, beq_iff_eq] at htu
      obtain ⟨rfl, rfl⟩ := htu
      exact instantiate_var_congr hστ h
    | fn qs s => simp [sameAs] at htu
  | fn ps s ihp ihs =>
    cases u with
    | inst e bs m => simp [sameAs] at htu
    | var y b m => simp [sameAs] at htu
    | fn qs v =>
      obtain ⟨hps, hs⟩ := everywhere_fn.mp ht
      obtain ⟨hqs, hv⟩ := everywhere_fn.mp hu
      obtain ⟨hsv, hpq⟩ := sameAs_fn_iff.mp htu
      obtain ⟨ps', s', hps', hs', rfl⟩ := instantiate_fn_eq_ok_iff.mp h
      obtain ⟨v', hv', hsv'⟩ := ihs hs hv hsv hs'
      obtain ⟨qs', hqs', hpq'⟩ := instantiateParams_congr_of
        (fun x hx y hy hxy r => ihp x hx (hps x hx) (hqs y hy) hxy) hpq hps'
      exact ⟨fn qs' v', instantiate_fn_eq_ok_iff.mpr ⟨qs', v', hqs', hv', rfl⟩,
        sameAs_fn_iff.mpr ⟨hsv', hpq'⟩⟩

end TypeExpr

/-! ## Remapping -/

namespace Bindings

theorem remap_nil (b : Bindings) : b.remap [] = .ok b := rfl

theorem remap_of_ne_nil {outer : Bindings} (h : outer ≠ []) (b : Bindings) :
    b.remap outer = TypeExpr.instantiateEach outer b := by
  cases outer with
  | nil => exact absurd rfl h
  | cons e rest => rfl

theorem remap_names {b outer c : Bindings} (h : b.remap outer = .ok c) :
    c.map (·.1) = b.map (·.1) := by
  by_cases ho : outer = []
  · subst ho
    cases h
    rfl
  · rw [remap_of_ne_nil ho] at h
    exact TypeExpr.instantiateEach_names h

theorem remap_eq_error {b outer : Bindings} {f : Fault} (h : b.remap outer = .error f) :
    ∃ x, f = .unboundParameter x := by
  by_cases ho : outer = []
  · rw [ho, remap_nil] at h
    cases h
  · rw [remap_of_ne_nil ho] at h
    obtain ⟨v, _, hv⟩ := TypeExpr.instantiateEach_eq_error_iff.mp h
    exact ⟨v.name, hv⟩

theorem everywhere_remap {P : Definition → List String → Prop} {b outer c : Bindings}
    (hb : ∀ e ∈ b, e.2.Everywhere P) (ho : ∀ e ∈ outer, e.2.Everywhere P)
    (h : b.remap outer = .ok c) : ∀ e ∈ c, e.2.Everywhere P := by
  by_cases hnil : outer = []
  · subst hnil
    cases h
    exact hb
  · rw [remap_of_ne_nil hnil] at h
    exact TypeExpr.everywhere_instantiateEach (fun e he r => (hb e he).instantiate ho) h

theorem remap_congr {a b outer outer' c : Bindings} (ha : (a.map (·.1)).Nodup)
    (hb : (b.map (·.1)).Nodup) (had : ∀ e ∈ a, e.2.Distinct) (hbd : ∀ e ∈ b, e.2.Distinct)
    (hab : a.sameAs b = true) (ho : outer.sameAs outer' = true) (h : a.remap outer = .ok c) :
    ∃ d, b.remap outer' = .ok d ∧ c.sameAs d = true := by
  have hlen := (sameAs_iff.mp ho).1
  by_cases hnil : outer = []
  · subst hnil
    cases h
    rw [List.eq_nil_of_length_eq_zero hlen.symm]
    exact ⟨b, rfl, hab⟩
  · have hnil' : outer' ≠ [] := by
      rintro rfl
      exact hnil (List.eq_nil_of_length_eq_zero hlen)
    rw [remap_of_ne_nil hnil] at h
    rw [remap_of_ne_nil hnil']
    exact TypeExpr.instantiateEach_congr_of ha hb
      (fun e he f hf hef r => TypeExpr.instantiate_congr (had e he) (hbd f hf) hef ho) hab h

end Bindings

theorem Bindings.not_hitsLimit_remap {b outer : Bindings} : ¬ HitsLimit (b.remap outer) :=
  not_hitsLimit_of_unbound fun _ => remap_eq_error

theorem Instance.remap_eq_ok_iff {i j : Instance} {outer : Bindings} :
    i.remap outer = .ok j ↔ ∃ args, i.args.remap outer = .ok args ∧ j = { i with args } := by
  rw [Instance.remap, bind_eq_ok_iff]
  simp only [pure_eq_ok, Except.ok.injEq, eq_comm]

theorem Instance.definition_remap {i j : Instance} {outer : Bindings}
    (h : i.remap outer = .ok j) : j.definition = i.definition := by
  obtain ⟨args, _, rfl⟩ := Instance.remap_eq_ok_iff.mp h
  rfl

theorem Instance.remap_eq_error {i : Instance} {outer : Bindings} {f : Fault}
    (h : i.remap outer = .error f) : ∃ x, f = .unboundParameter x := by
  rcases bind_eq_error_iff.mp h with h | ⟨_, _, h⟩
  · exact Bindings.remap_eq_error h
  · cases h

theorem Instance.not_hitsLimit_remap {i : Instance} {outer : Bindings} :
    ¬ HitsLimit (i.remap outer) :=
  not_hitsLimit_of_unbound fun _ => remap_eq_error

theorem TypeExpr.substitute_eq_error {t : TypeExpr} {σ : Bindings} {f : Fault}
    (h : t.substitute σ = .error f) : ∃ x, f = .unboundParameter x := by
  by_cases hσ : σ = []
  · rw [hσ, substitute_nil] at h
    cases h
  · rw [substitute_of_ne_nil hσ] at h
    obtain ⟨v, _, hv⟩ := instantiate_eq_error_iff.mp h
    exact ⟨v.name, hv⟩

/-- Substitution in an instance remaps its arguments. -/
theorem Instance.substitute_toExpr {i : Instance} {σ : Bindings} {r : TypeExpr} :
    i.toExpr.substitute σ = .ok r ↔ ∃ j, i.remap σ = .ok j ∧ r = j.toExpr := by
  simp only [Instance.remap_eq_ok_iff]
  by_cases hσ : σ = []
  · subst hσ
    rw [Bindings.remap_nil, TypeExpr.substitute_nil]
    constructor
    · rintro ⟨⟩
      exact ⟨i, ⟨i.args, rfl, rfl⟩, rfl⟩
    · rintro ⟨_, ⟨_, ⟨⟩, rfl⟩, rfl⟩
      rfl
  · rw [Bindings.remap_of_ne_nil hσ, TypeExpr.substitute_of_ne_nil hσ, Instance.toExpr,
      TypeExpr.instantiate_inst_eq_ok_iff]
    constructor
    · rintro ⟨args, hargs, rfl⟩
      exact ⟨{ i with args }, ⟨args, hargs, rfl⟩, rfl⟩
    · rintro ⟨_, ⟨args, hargs, rfl⟩, rfl⟩
      exact ⟨args, hargs, rfl⟩

theorem Instance.remap_of_substitute_toExpr {i j : Instance} {σ : Bindings}
    (h : i.toExpr.substitute σ = .ok j.toExpr) : i.remap σ = .ok j := by
  obtain ⟨k, hk, hjk⟩ := Instance.substitute_toExpr.mp h
  obtain rfl : j = k := Option.some.inj (congrArg TypeExpr.asInstance? hjk)
  exact hk

theorem TypeExpr.exists_substitute {t : TypeExpr} {σ : Bindings}
    (h : ∀ v ∈ t.occurrences, σ.binds v.name = true) : ∃ r, t.substitute σ = .ok r := by
  by_cases hσ : σ = []
  · exact ⟨t, by rw [hσ, substitute_nil]⟩
  · rw [substitute_of_ne_nil hσ]
    exact exists_instantiate_iff.mpr h

theorem TypeExpr.substitute_congr {t u r : TypeExpr} {σ τ : Bindings} (ht : t.Distinct)
    (hu : u.Distinct) (htu : t.sameAs u = true) (hστ : σ.sameAs τ = true)
    (h : t.substitute σ = .ok r) : ∃ s, u.substitute τ = .ok s ∧ r.sameAs s = true := by
  have hlen := (Bindings.sameAs_iff.mp hστ).1
  by_cases hσ : σ = []
  · subst hσ
    cases h
    rw [List.eq_nil_of_length_eq_zero hlen.symm]
    exact ⟨u, rfl, htu⟩
  · have hτ : τ ≠ [] := by
      rintro rfl
      exact hσ (List.eq_nil_of_length_eq_zero hlen)
    rw [substitute_of_ne_nil hσ] at h
    rw [substitute_of_ne_nil hτ]
    exact instantiate_congr ht hu htu hστ h

theorem TypeExpr.not_hitsLimit_substitute {t : TypeExpr} {σ : Bindings} :
    ¬ HitsLimit (t.substitute σ) :=
  not_hitsLimit_of_unbound fun _ => substitute_eq_error

theorem TypeExpr.Everywhere.substitute {P : Definition → List String → Prop} {t r : TypeExpr}
    {σ : Bindings} (ht : t.Everywhere P) (hσ : ∀ e ∈ σ, e.2.Everywhere P)
    (h : t.substitute σ = .ok r) : r.Everywhere P := by
  by_cases hnil : σ = []
  · subst hnil
    cases h
    exact ht
  · rw [substitute_of_ne_nil hnil] at h
    exact ht.instantiate hσ h

end NominalTypes
