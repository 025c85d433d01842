import NominalTypes.Proofs.Specialization.Lookup
import NominalTypes.Proofs.Subtyping

/-!
# Assignability of specialised types

The search for a supertype takes the same way up from a type and from the same type with `σ`
substituted.  It may stop earlier from the latter, where arguments have become equal, but it never
comes to a fault that it did not come to before:

* `Universe.Coherent.exists_acceptsFrom_remap`: an answer before substitution gives an answer after
  it, and success gives success;
* `Session.Reachable.accepts_substitute`: what is accepted is accepted under every substitution.
-/

namespace NominalTypes

namespace Universe

variable {U : Universe} {σ : Bindings} {limit levels : Nat} {target target' source source' : Instance}

theorem AdmitsArgs.sameAs_remap {a b a' b' : Bindings} (ha : U.AdmitsArgs a) (hb : U.AdmitsArgs b)
    (hσ : U.AdmitsArgs σ) (h : a.sameAs b = true) (ha' : a.remap σ = .ok a')
    (hb' : b.remap σ = .ok b') : a'.sameAs b' = true := by
  obtain ⟨c, hc, hsame⟩ := ha.remap_congr hb h hσ.sameAs_refl ha'
  rw [hb'] at hc
  cases hc
  exact hsame

theorem Coherent.exists_acceptsFrom_remap (hU : U.Coherent)
    (hfull : ∀ nodes top, U.Path source nodes top → U.Full top)
    (ht : U.AdmitsArgs target.args) (hs : U.AdmitsArgs source.args) (hσ : U.AdmitsArgs σ)
    (ht' : target.remap σ = .ok target') (hs' : source.remap σ = .ok source') {answer : Bool}
    (h : U.acceptsFrom limit target levels source = .ok answer) :
    ∃ answer', U.acceptsFrom limit target' levels source' = .ok answer' ∧
      (answer = true → answer' = true) := by
  obtain ⟨targs, htargs, rfl⟩ := Instance.remap_eq_ok_iff.mp ht'
  induction levels generalizing source source' answer with
  | zero => cases h
  | succ levels ih =>
    obtain ⟨sargs, hsargs, rfl⟩ := Instance.remap_eq_ok_iff.mp hs'
    cases hn : source.nullable && !target.nullable with
    | true =>
      rw [acceptsFrom_nullable hn] at h
      cases h
      exact ⟨false, acceptsFrom_nullable hn, id⟩
    | false =>
      cases hd : target.definition.sameAs source.definition with
      | true =>
        rw [acceptsFrom_reached hn hd] at h
        refine ⟨_, acceptsFrom_reached hn hd, fun hanswer => ?_⟩
        subst hanswer
        exact ht.sameAs_remap hs hσ (Except.ok.inj h) htargs hsargs
      | false =>
        have hup' : U.acceptsFrom limit { target with args := targs } (levels + 1)
            { source with args := sargs } = _ := acceptsFrom_up hn hd
        rw [acceptsFrom_up hn hd] at h
        rw [hup']
        refine exists_anyM_eq_ok h fun i hi b hb => ?_
        have hmem := mem_supertypes_of_mem_candidates hi
        obtain ⟨above, hr, hb⟩ := bind_eq_ok_iff.mp hb
        obtain ⟨_, above', hr', hσ', habove'⟩ :=
          hU.remap_level (hfull [source] source (.here source)) hs' hmem
        rw [hr] at hr'
        cases hr'
        have hfull' (nodes : List Instance) (top : Instance) (hpath : U.Path above nodes top) :
            U.Full top := hfull _ top (.up ⟨i, hmem, hr⟩ hpath)
        obtain ⟨c, hc, hbc⟩ := ih hfull' (hU.admitsArgs_of_hop hs ⟨i, hmem, hr⟩) hσ' hb
        exact ⟨c, bind_eq_ok_iff.mpr ⟨above', habove', hc⟩, hbc⟩

end Universe

/-! ## Reachable sessions -/

namespace Session

variable {lenient : Bool} {S : Session}

theorem Reachable.accepts_substitute (h : Reachable lenient S) {target target' source source' : Instance}
    {σ : Bindings} (ht : .type target.toExpr ∈ S.items) (hs : .type source.toExpr ∈ S.items)
    (hσ : .bindings σ ∈ S.items)
    (hfull : ∀ nodes top, S.known.Path source nodes top → S.known.Full top)
    (ht' : target.toExpr.substitute σ = .ok target'.toExpr)
    (hs' : source.toExpr.substitute σ = .ok source'.toExpr) {limit : Nat}
    (haccepts : S.known.accepts limit target source = .ok true) :
    S.known.accepts limit target' source' = .ok true := by
  have hU := h.wellFormed.coherent
  obtain ⟨answer, hanswer, htrue⟩ := hU.exists_acceptsFrom_remap hfull
    (Universe.admits_toExpr.mp (h.admits ht)).2 (Universe.admits_toExpr.mp (h.admits hs)).2
    (h.wellFormed.items _ hσ) (Instance.remap_of_substitute_toExpr ht')
    (Instance.remap_of_substitute_toExpr hs') haccepts
  rw [htrue rfl] at hanswer
  exact hanswer

end Session

namespace Shelves

theorem rack_var_mem : .type (rack (var "X")).toExpr ∈ session.items :=
  List.mem_cons_of_mem _ (Session.mem_of_instance? (n := 47) (by cbv))

theorem box_mem : .type (box (source (var "X")).toExpr).toExpr ∈ session.items :=
  List.mem_cons_of_mem _ (Session.mem_of_instance? (n := 52) (by cbv))

/-- `Box<E=Source<T=X>>` is three levels above `Rack<X=X>`, and `Box<E=Source<T=Name>>` is above
`Rack<X=Name>`. -/
theorem box_accepts_rack :
    session.known.accepts 3 (box (source (var "X")).toExpr) (rack (var "X")) = .ok true ∧
      session.known.accepts 3 (box (source name).toExpr) (rack name) = .ok true := by
  have haccepts : session.known.accepts 3 (box (source (var "X")).toExpr) (rack (var "X")) =
      .ok true := rfl
  have hσ : .bindings [("X", name)] ∈ session.items := List.mem_cons_self
  have ht' : (box (source (var "X")).toExpr).toExpr.substitute [("X", name)] =
      .ok (box (source name).toExpr).toExpr := rfl
  have hs' : (rack (var "X")).toExpr.substitute [("X", name)] = .ok (rack name).toExpr := rfl
  exact ⟨haccepts, reachable.accepts_substitute box_mem rack_var_mem hσ
    (fun _ _ hpath => full_of_rack_path hpath) ht' hs' haccepts⟩

end Shelves

end NominalTypes
