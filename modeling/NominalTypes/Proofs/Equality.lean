import NominalTypes.Proofs.Occurrences
import NominalTypes.TypeExpr.Equality
import Mathlib.Data.List.Perm.Subperm
import Mathlib.Data.List.Perm.Basic

/-!
# Laws of equality

Equality of types compares argument lists entry by entry through `lookup`.  On lists that bind no
parameter twice it says the same as one symmetric condition on every name:

* `Bindings.sameAs_iff_type?`: each name is bound to equal types, or unbound on both sides;
* `TypeExpr.sameAs_refl`, `TypeExpr.sameAs_symm`, `TypeExpr.sameAs_trans`: from it, equality of
  types is an equivalence relation;
* `TypeExpr.SameEntries`: lists that are equal entry by entry, in one order.
-/

namespace NominalTypes

namespace Bindings

/-! ## Look-up -/

theorem mem_of_type? {b : Bindings} {p : String} {t : TypeExpr} (h : b.type? p = some t) :
    (p, t) ∈ b := by
  obtain ⟨before, after, rfl, _⟩ := List.lookup_eq_some_iff.mp h
  simp

theorem type?_of_mem {b : Bindings} (hb : (b.map (·.1)).Nodup) {p : String} {t : TypeExpr}
    (h : (p, t) ∈ b) : b.type? p = some t := by
  induction b with
  | nil => exact absurd h List.not_mem_nil
  | cons e rest ih =>
    rw [List.map_cons, List.nodup_cons] at hb
    rw [type?_cons]
    rcases List.mem_cons.mp h with rfl | h
    · rw [if_pos rfl]
    · have hne : p ≠ e.1 := by
        rintro rfl
        exact hb.1 (List.mem_map.mpr ⟨_, h, rfl⟩)
      rw [if_neg hne, ih hb.2 h]

theorem type?_eq_some_iff {b : Bindings} (hb : (b.map (·.1)).Nodup) {p : String} {t : TypeExpr} :
    b.type? p = some t ↔ (p, t) ∈ b :=
  ⟨mem_of_type?, type?_of_mem hb⟩

/-! ## Argument lists -/

theorem sameAs_iff {a b : Bindings} :
    a.sameAs b = true ↔
      a.length = b.length ∧ ∀ e ∈ a, ∃ u, b.type? e.1 = some u ∧ e.2.sameAs u = true := by
  rw [sameAs, TypeExpr.eachBoundIn_eq_all]
  simp only [Bool.and_eq_true, beq_iff_eq, List.all_eq_true, Option.any_eq_true, type?]

/-- The order of binding out of sight: what each side binds a name to.  With equally many names,
none of them twice, there is no name that only one side binds. -/
theorem sameAs_iff_type? {a b : Bindings} (ha : (a.map (·.1)).Nodup) (hb : (b.map (·.1)).Nodup) :
    a.sameAs b = true ↔
      (∀ p t, a.type? p = some t → ∃ u, b.type? p = some u ∧ t.sameAs u = true) ∧
      (∀ p u, b.type? p = some u → ∃ t, a.type? p = some t ∧ t.sameAs u = true) := by
  rw [sameAs_iff]
  constructor
  · rintro ⟨hlen, h⟩
    refine ⟨fun p t ht => h _ (mem_of_type? ht), ?_⟩
    intro p u hu
    have hsub : a.map (·.1) ⊆ b.map (·.1) := by
      intro q hq
      obtain ⟨e, he, rfl⟩ := List.mem_map.mp hq
      obtain ⟨v, hv, _⟩ := h e he
      exact List.mem_map.mpr ⟨_, mem_of_type? hv, rfl⟩
    have hperm : (a.map (·.1)).Perm (b.map (·.1)) :=
      (ha.subperm hsub).perm_of_length_le (by simp [hlen])
    have hp : p ∈ a.map (·.1) :=
      hperm.mem_iff.mpr (List.mem_map.mpr ⟨_, mem_of_type? hu, rfl⟩)
    obtain ⟨e, he, rfl⟩ := List.mem_map.mp hp
    obtain ⟨v, hv, htv⟩ := h e he
    rw [hu] at hv
    cases hv
    exact ⟨e.2, type?_of_mem ha he, htv⟩
  · rintro ⟨hab, hba⟩
    have hmem : ∀ p, p ∈ a.map (·.1) ↔ p ∈ b.map (·.1) := by
      intro p
      rw [← binds_iff, ← binds_iff, binds, binds, Option.isSome_iff_exists,
        Option.isSome_iff_exists]
      constructor
      · rintro ⟨t, ht⟩
        obtain ⟨u, hu, _⟩ := hab p t ht
        exact ⟨u, hu⟩
      · rintro ⟨u, hu⟩
        obtain ⟨t, ht, _⟩ := hba p u hu
        exact ⟨t, ht⟩
    have hperm := (List.perm_ext_iff_of_nodup ha hb).mpr hmem
    refine ⟨by simpa using hperm.length_eq, ?_⟩
    intro e he
    exact hab e.1 e.2 (type?_of_mem ha he)

/-! What holds of equality of the single types holds of equality of argument lists. -/

theorem sameAs_refl_of {a : Bindings} (ha : (a.map (·.1)).Nodup)
    (h : ∀ e ∈ a, e.2.sameAs e.2 = true) : a.sameAs a = true :=
  sameAs_iff.mpr ⟨rfl, fun e he => ⟨e.2, type?_of_mem ha he, h e he⟩⟩

theorem sameAs_symm_of {a b : Bindings} (ha : (a.map (·.1)).Nodup) (hb : (b.map (·.1)).Nodup)
    (h : ∀ e ∈ a, ∀ f ∈ b, e.2.sameAs f.2 = true → f.2.sameAs e.2 = true)
    (hab : a.sameAs b = true) : b.sameAs a = true := by
  obtain ⟨hleft, hright⟩ := (sameAs_iff_type? ha hb).mp hab
  refine (sameAs_iff_type? hb ha).mpr ⟨?_, ?_⟩
  · intro p u hu
    obtain ⟨t, ht, htu⟩ := hright p u hu
    exact ⟨t, ht, h _ (mem_of_type? ht) _ (mem_of_type? hu) htu⟩
  · intro p t ht
    obtain ⟨u, hu, htu⟩ := hleft p t ht
    exact ⟨u, hu, h _ (mem_of_type? ht) _ (mem_of_type? hu) htu⟩

theorem sameAs_trans_of {a b c : Bindings}
    (h : ∀ e ∈ a, ∀ u v, e.2.sameAs u = true → u.sameAs v = true → e.2.sameAs v = true)
    (hab : a.sameAs b = true) (hbc : b.sameAs c = true) : a.sameAs c = true := by
  obtain ⟨hlab, hab⟩ := sameAs_iff.mp hab
  obtain ⟨hlbc, hbc⟩ := sameAs_iff.mp hbc
  refine sameAs_iff.mpr ⟨hlab.trans hlbc, fun x hx => ?_⟩
  obtain ⟨y, hy, hxy⟩ := hab x hx
  obtain ⟨z, hz, hyz⟩ := hbc _ (mem_of_type? hy)
  exact ⟨z, hz, h x hx y z hxy hyz⟩

end Bindings

namespace TypeExpr

/-! ## Inversion -/

theorem sameAs_inst_iff {d e : Definition} {as bs : Bindings} {n m : Bool} :
    (inst d as n).sameAs (inst e bs m) = true ↔
      n = m ∧ d.sameAs e = true ∧ Bindings.sameAs as bs = true := by
  simp only [sameAs, Bindings.sameAs, Bool.and_eq_true, beq_iff_eq]
  tauto

theorem sameParams_iff {ps qs : List (String × TypeExpr)} :
    sameParams ps qs = true ↔ List.Forall₂ (fun p q => p.2.sameAs q.2 = true) ps qs := by
  induction ps generalizing qs with
  | nil => cases qs <;> simp [sameParams]
  | cons p ps ih => cases qs <;> simp [sameParams, ih]

theorem sameAs_fn_iff {ps qs : List (String × TypeExpr)} {r s : TypeExpr} :
    (fn ps r).sameAs (fn qs s) = true ↔
      r.sameAs s = true ∧ List.Forall₂ (fun p q => p.2.sameAs q.2 = true) ps qs := by
  rw [sameAs, Bool.and_eq_true, sameParams_iff]

/-! ## Equivalence -/

theorem sameAs_refl {t : TypeExpr} (ht : t.Distinct) : t.sameAs t = true := by
  induction t using inductOutsideBounds with
  | inst d args n ih =>
    obtain ⟨hnodup, hargs⟩ := everywhere_inst.mp ht
    refine sameAs_inst_iff.mpr ⟨rfl, Definition.sameAs_iff.mpr rfl, ?_⟩
    exact Bindings.sameAs_refl_of hnodup fun e he => ih e he (hargs e he)
  | var x b n => simp [sameAs]
  | fn params result ihp ihr =>
    obtain ⟨hparams, hresult⟩ := everywhere_fn.mp ht
    refine sameAs_fn_iff.mpr ⟨ihr hresult, ?_⟩
    exact List.forall₂_same.mpr fun e he => ihp e he (hparams e he)

theorem sameAs_symm {t u : TypeExpr} (ht : t.Distinct) (hu : u.Distinct)
    (h : t.sameAs u = true) : u.sameAs t = true := by
  induction t using inductOutsideBounds generalizing u with
  | inst d as n ih =>
    cases u with
    | inst e bs m =>
      obtain ⟨hna, has⟩ := everywhere_inst.mp ht
      obtain ⟨hnb, hbs⟩ := everywhere_inst.mp hu
      obtain ⟨hn, hd, hab⟩ := sameAs_inst_iff.mp h
      have hd' := (Definition.sameAs_iff.mp hd).symm
      refine sameAs_inst_iff.mpr ⟨hn.symm, Definition.sameAs_iff.mpr hd', ?_⟩
      exact Bindings.sameAs_symm_of hna hnb
        (fun x hx y hy hxy => ih x hx (has x hx) (hbs y hy) hxy) hab
    | var y b m => simp [sameAs] at h
    | fn qs s => simp [sameAs] at h
  | var x b n => cases u <;> simp_all [sameAs]
  | fn ps r ihp ihr =>
    cases u with
    | inst e bs m => simp [sameAs] at h
    | var y b m => simp [sameAs] at h
    | fn qs s =>
      obtain ⟨hps, hr⟩ := everywhere_fn.mp ht
      obtain ⟨hqs, hs⟩ := everywhere_fn.mp hu
      obtain ⟨hrs, hpq⟩ := sameAs_fn_iff.mp h
      refine sameAs_fn_iff.mpr ⟨ihr hr hs hrs, List.forall₂_iff_get.mpr ?_⟩
      obtain ⟨hlen, hpq⟩ := List.forall₂_iff_get.mp hpq
      refine ⟨hlen.symm, fun i hq hp => ?_⟩
      exact ihp _ (List.get_mem ps ⟨i, hp⟩) (hps _ (List.get_mem ps ⟨i, hp⟩))
        (hqs _ (List.get_mem qs ⟨i, hq⟩)) (hpq i hp hq)

theorem sameAs_trans {t u v : TypeExpr} (htu : t.sameAs u = true) (huv : u.sameAs v = true) :
    t.sameAs v = true := by
  induction t using inductOutsideBounds generalizing u v with
  | inst d as n ih =>
    cases u with
    | inst e bs m =>
      cases v with
      | inst f cs k =>
        obtain ⟨hnm, hde, hab⟩ := sameAs_inst_iff.mp htu
        obtain ⟨hmk, hef, hbc⟩ := sameAs_inst_iff.mp huv
        have hdf := (Definition.sameAs_iff.mp hde).trans (Definition.sameAs_iff.mp hef)
        refine sameAs_inst_iff.mpr ⟨hnm.trans hmk, Definition.sameAs_iff.mpr hdf, ?_⟩
        exact Bindings.sameAs_trans_of (fun x hx _ _ hxy hyz => ih x hx hxy hyz) hab hbc
      | var y b m => simp [sameAs] at huv
      | fn qs s => simp [sameAs] at huv
    | var y b m => simp [sameAs] at htu
    | fn qs s => simp [sameAs] at htu
  | var x b n => cases u <;> cases v <;> simp_all [sameAs]
  | fn ps r ihp ihr =>
    cases u with
    | inst e bs m => simp [sameAs] at htu
    | var y b m => simp [sameAs] at htu
    | fn qs s =>
      cases v with
      | inst f cs k => simp [sameAs] at huv
      | var y b m => simp [sameAs] at huv
      | fn xs w =>
        obtain ⟨hrs, hpq⟩ := sameAs_fn_iff.mp htu
        obtain ⟨hsw, hqx⟩ := sameAs_fn_iff.mp huv
        obtain ⟨hlpq, hpq⟩ := List.forall₂_iff_get.mp hpq
        obtain ⟨hlqx, hqx⟩ := List.forall₂_iff_get.mp hqx
        refine sameAs_fn_iff.mpr ⟨ihr hrs hsw, List.forall₂_iff_get.mpr ?_⟩
        refine ⟨hlpq.trans hlqx, fun i hp hx => ?_⟩
        have hq : i < qs.length := hlpq ▸ hp
        exact ihp _ (List.get_mem ps ⟨i, hp⟩) (hpq i hp hq) (hqx i hq hx)

/-! ## Nullability -/

theorem sameAs_toNullable {t u : TypeExpr} (h : t.sameAs u = true) :
    t.toNullable.sameAs u.toNullable = true := by
  cases t <;> cases u <;> simp_all [sameAs, toNullable]

/-! ## Entries in the same order -/

/-- The same names in the same order, with equal types. -/
def SameEntries (types results : List (String × TypeExpr)) : Prop :=
  List.Forall₂ (fun p q => q.1 = p.1 ∧ p.2.sameAs q.2 = true) types results

theorem SameEntries.names {types results : List (String × TypeExpr)}
    (h : SameEntries types results) : results.map (·.1) = types.map (·.1) := by
  induction h with
  | nil => rfl
  | cons hpq _ ih => rw [List.map_cons, List.map_cons, hpq.1, ih]

theorem SameEntries.exists_of_mem {types results : List (String × TypeExpr)}
    (h : SameEntries types results) {p : String × TypeExpr} (hp : p ∈ types) :
    ∃ q ∈ results, q.1 = p.1 ∧ p.2.sameAs q.2 = true := by
  induction h with
  | nil => cases hp
  | @cons _ q _ _ hpq _ ih =>
    rcases List.mem_cons.mp hp with rfl | hp
    · exact ⟨q, List.mem_cons_self, hpq⟩
    · obtain ⟨q', hq', h⟩ := ih hp
      exact ⟨q', List.mem_cons_of_mem q hq', h⟩

theorem SameEntries.sameAs {as bs : Bindings} (hbs : (bs.map (·.1)).Nodup)
    (h : SameEntries as bs) : Bindings.sameAs as bs = true := by
  refine Bindings.sameAs_iff.mpr ⟨h.length_eq, fun e he => ?_⟩
  obtain ⟨f, hf, hname, hsame⟩ := h.exists_of_mem he
  exact ⟨f.2, Bindings.type?_of_mem hbs (hname ▸ hf), hsame⟩

end TypeExpr

namespace Bindings

theorem sameAs_refl {a : Bindings} (ha : (a.map (·.1)).Nodup) (h : ∀ e ∈ a, e.2.Distinct) :
    a.sameAs a = true :=
  sameAs_refl_of ha fun e he => TypeExpr.sameAs_refl (h e he)

theorem sameAs_symm {a b : Bindings} (ha : (a.map (·.1)).Nodup) (hb : (b.map (·.1)).Nodup)
    (had : ∀ e ∈ a, e.2.Distinct) (hbd : ∀ e ∈ b, e.2.Distinct) (h : a.sameAs b = true) :
    b.sameAs a = true :=
  sameAs_symm_of ha hb (fun e he f hf => TypeExpr.sameAs_symm (had e he) (hbd f hf)) h

theorem sameAs_trans {a b c : Bindings} (hab : a.sameAs b = true) (hbc : b.sameAs c = true) :
    a.sameAs c = true :=
  sameAs_trans_of (fun _ _ _ _ => TypeExpr.sameAs_trans) hab hbc

end Bindings

end NominalTypes
