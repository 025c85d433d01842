import NominalTypes.Assignability
import NominalTypes.Proofs.Acyclicity

/-!
# Assignability and supertype paths

* `Universe.Fits`: a supertype path leads from the source to the target;
* `Universe.Coherent.accepts_eq_iff`: any answer says whether there is such a path;
* `Universe.Coherent.fits_trans`, `Universe.Coherent.sameAs_of_fits`: paths can be joined, and none
  leads back;
* `Universe.acceptsFrom_stable`: an answer is the answer under every larger limit;
* `Universe.acceptsFrom_eq_error`: the search fails only where a path is too long or an argument
  is missing, and `Universe.Coherent.exists_acceptsFrom_eq_ok` when neither happens;
* `Universe.Coherent.exists_substitute`: where no argument is missing, every type of the body can be
  resolved, and `Universe.Coherent.full_of_path`: none is missing anywhere above.
-/

namespace NominalTypes

namespace Universe

/-- Declarations that share a package and a name are one and the same. -/
def Unambiguous (U : Universe) : Prop :=
  ∀ d ∈ U.definitions, ∀ e ∈ U.definitions, d.qualified = e.qualified → d = e

/-- Some path from the source ends at the target's definition with the target's arguments; no type
on it is nullable, the source included, unless the target is. -/
def Fits (U : Universe) (target source : Instance) : Prop :=
  ∃ nodes found, U.Path source nodes found ∧ found.definition = target.definition ∧
    target.args.sameAs found.args = true ∧
    (target.nullable = false → ∀ n ∈ nodes, n.nullable = false)

/-- Each parameter of the definition has an argument. -/
def Full (U : Universe) (i : Instance) : Prop :=
  ∀ p ∈ U.parameters i.definition, i.args.binds p.name = true

instance (U : Universe) (i : Instance) : Decidable (U.Full i) :=
  inferInstanceAs (Decidable (∀ p ∈ U.parameters i.definition, i.args.binds p.name = true))

variable {U : Universe} {limit limit' levels levels' : Nat} {target source : Instance}

/-! ## One level -/

theorem acceptsFrom_nullable (h : (source.nullable && !target.nullable) = true) :
    U.acceptsFrom limit target (levels + 1) source = .ok false := by
  rw [acceptsFrom, if_pos h]

theorem acceptsFrom_reached (h : (source.nullable && !target.nullable) = false)
    (hd : target.definition.sameAs source.definition = true) :
    U.acceptsFrom limit target (levels + 1) source = .ok (target.args.sameAs source.args) := by
  rw [acceptsFrom, h, hd, if_neg Bool.false_ne_true, if_pos rfl]

theorem acceptsFrom_up (h : (source.nullable && !target.nullable) = false)
    (hd : target.definition.sameAs source.definition = false) :
    U.acceptsFrom limit target (levels + 1) source =
      (U.candidates target.definition source.definition).anyM fun i =>
        i.remap source.args >>= fun above => U.acceptsFrom limit target levels above := by
  rw [acceptsFrom, h, hd, if_neg Bool.false_ne_true, if_neg Bool.false_ne_true]

/-- A level settles the answer, or hands on to the candidates. -/
theorem acceptsFrom_step (U : Universe) (target source : Instance) :
    (∃ answer, ∀ limit levels, U.acceptsFrom limit target (levels + 1) source = .ok answer) ∨
    (∀ limit levels, U.acceptsFrom limit target (levels + 1) source =
      (U.candidates target.definition source.definition).anyM fun i =>
        i.remap source.args >>= fun above => U.acceptsFrom limit target levels above) := by
  cases hn : source.nullable && !target.nullable with
  | true => exact .inl ⟨false, fun _ _ => acceptsFrom_nullable hn⟩
  | false =>
    cases hd : target.definition.sameAs source.definition with
    | true => exact .inl ⟨_, fun _ _ => acceptsFrom_reached hn hd⟩
    | false => exact .inr fun _ _ => acceptsFrom_up hn hd

theorem mem_supertypes_of_mem_candidates {d e : Definition} {i : Instance}
    (h : i ∈ U.candidates d e) : i ∈ U.supertypes e := by
  rw [mem_supertypes_iff]
  rw [candidates] at h
  rcases List.mem_append.mp h with h | h
  · exact .inl (Option.mem_toList.mp h)
  · split at h
    · exact .inr h
    · exact absurd h List.not_mem_nil

/-- A class is searched for along parents only. -/
theorem candidates_of_class {d e : Definition} (h : d.isInterface = false) :
    U.candidates d e = (U.parent? e).toList := by
  rw [candidates, h, if_neg Bool.false_ne_true, List.append_nil]

/-! ## Paths that the search finds -/

theorem Unambiguous.eq_of_sameAs (hu : U.Unambiguous) {d e : Definition} (hd : d ∈ U.definitions)
    (he : e ∈ U.definitions) (h : d.sameAs e = true) : d = e :=
  hu d hd e he (Definition.sameAs_iff.mp h)

theorem Coherent.fits_of_acceptsFrom (hU : U.Coherent) (hu : U.Unambiguous)
    (ht : target.definition ∈ U.definitions) (hs : source.definition ∈ U.definitions)
    (h : U.acceptsFrom limit target levels source = .ok true) : U.Fits target source := by
  induction levels generalizing source with
  | zero => cases h
  | succ levels ih =>
    cases hn : source.nullable && !target.nullable with
    | true =>
      rw [acceptsFrom_nullable hn] at h
      cases h
    | false =>
      have hnull (htn : target.nullable = false) : source.nullable = false := by
        simpa [htn] using hn
      cases hd : target.definition.sameAs source.definition with
      | true =>
        rw [acceptsFrom_reached hn hd] at h
        refine ⟨[source], source, .here source, (hu.eq_of_sameAs ht hs hd).symm, ?_, ?_⟩
        · exact Except.ok.inj h
        · exact fun htn => List.forall_mem_singleton.mpr (hnull htn)
      | false =>
        rw [acceptsFrom_up hn hd] at h
        obtain ⟨i, hi, h⟩ := exists_of_anyM_eq_true h
        obtain ⟨above, hr, h⟩ := bind_eq_ok_iff.mp h
        have hop : U.Hop source above := ⟨i, mem_supertypes_of_mem_candidates hi, hr⟩
        obtain ⟨nodes, found, hpath, hfound, hargs, hnodes⟩ := ih (hU.mem_of_link hop.link) h
        refine ⟨source :: nodes, found, .up hop hpath, hfound, hargs, ?_⟩
        exact fun htn => List.forall_mem_cons.mpr ⟨hnull htn, hnodes htn⟩

/-! ## Paths that the search leaves out -/

theorem Coherent.isInterface_of_link (hU : U.Coherent) {d e : Definition} (hd : d ∈ U.definitions)
    (h : U.Link d e) (hi : d.isInterface = true) : e.isInterface = true := by
  obtain ⟨i, hmem, rfl⟩ := h
  rcases mem_supertypes_iff.mp hmem with hp | hp
  · have hkind := (hU.allows_body hd).parent_kind i hp
    rwa [Definition.isInterface, hkind]
  · exact (hU.allows_body hd).interface_kind i hp

/-- Only parents lead to a class: what an interface extends or implements is an interface. -/
theorem Coherent.mem_candidates (hU : U.Coherent) {i above found : Instance}
    {nodes : List Instance} (hs : source.definition ∈ U.definitions)
    (hi : i ∈ U.supertypes source.definition) (hr : i.remap source.args = .ok above)
    (hpath : U.Path above nodes found) (hfound : found.definition = target.definition) :
    i ∈ U.candidates target.definition source.definition := by
  rw [candidates]
  rcases mem_supertypes_iff.mp hi with hp | hp
  · exact List.mem_append_left _ (Option.mem_toList.mpr hp)
  · have hop : U.Hop source above := ⟨i, hi, hr⟩
    have habove : above.definition ∈ U.definitions ∧ above.definition.isInterface = true := by
      obtain ⟨args, _, rfl⟩ := Instance.remap_eq_ok_iff.mp hr
      exact ⟨hU.mem_of_link hop.link, (hU.allows_body hs).interface_kind i hp⟩
    have hall := hpath.forall_mem
      (P := fun n => n.definition ∈ U.definitions ∧ n.definition.isInterface = true) habove
      fun a b hab ha => ⟨hU.mem_of_link hab.link, hU.isInterface_of_link ha.1 hab.link ha.2⟩
    have htarget := (hall found hpath.end_mem).2
    rw [hfound] at htarget
    rw [htarget, if_pos rfl]
    exact List.mem_append_right _ hp

/-- A path back to the definition it started from has not moved. -/
theorem Coherent.eq_of_path (hU : U.Coherent) {found : Instance} {nodes : List Instance}
    (hpath : U.Path source nodes found) (hd : source.definition = found.definition) :
    source = found := by
  rcases transGen_of_path hpath with h | h
  · exact h
  · rw [hd] at h
    exact absurd h (hU.not_transGen_link found.definition)

theorem Coherent.not_fits_of_acceptsFrom (hU : U.Coherent) (hu : U.Unambiguous)
    (ht : target.definition ∈ U.definitions) (hs : source.definition ∈ U.definitions)
    (h : U.acceptsFrom limit target levels source = .ok false) : ¬ U.Fits target source := by
  rintro ⟨nodes, found, hpath, hfound, hargs, hnodes⟩
  induction levels generalizing source nodes with
  | zero => cases h
  | succ levels ih =>
    cases hn : source.nullable && !target.nullable with
    | true =>
      rw [Bool.and_eq_true, Bool.not_eq_true'] at hn
      have hsource := hnodes hn.2 source hpath.start_mem
      rw [hn.1] at hsource
      cases hsource
    | false =>
      cases hd : target.definition.sameAs source.definition with
      | true =>
        rw [acceptsFrom_reached hn hd, Except.ok.injEq] at h
        have hsource := (hu.eq_of_sameAs ht hs hd).symm
        rw [hU.eq_of_path hpath (hsource.trans hfound.symm), hargs] at h
        cases h
      | false =>
        rw [acceptsFrom_up hn hd, anyM_eq_false_iff] at h
        cases hpath with
        | here =>
          rw [hfound, Definition.sameAs_iff.mpr rfl] at hd
          cases hd
        | up hop hpath =>
          obtain ⟨i, hi, hr⟩ := hop
          obtain ⟨above, hr', hfalse⟩ :=
            bind_eq_ok_iff.mp (h i (hU.mem_candidates hs hi hr hpath hfound))
          rw [hr] at hr'
          cases hr'
          refine ih (hU.mem_of_link (Hop.link ⟨i, hi, hr⟩)) hfalse _ hpath ?_
          exact fun htn => (List.forall_mem_cons.mp (hnodes htn)).2

theorem Coherent.accepts_eq_iff (hU : U.Coherent) (hu : U.Unambiguous)
    (ht : target.definition ∈ U.definitions) (hs : source.definition ∈ U.definitions) {r : Bool}
    (h : U.accepts limit target source = .ok r) : r = true ↔ U.Fits target source := by
  cases r with
  | true => exact ⟨fun _ => hU.fits_of_acceptsFrom hu ht hs h, fun _ => rfl⟩
  | false =>
    exact ⟨fun hr => absurd hr Bool.false_ne_true,
      fun hf => absurd hf (hU.not_fits_of_acceptsFrom hu ht hs h)⟩

/-! ## Joining paths -/

/-- A hop can be made from equal arguments too, and gives equal arguments. -/
theorem Coherent.exists_hop (hU : U.Coherent) {s s' t : Instance}
    (hd : s'.definition = s.definition) (hargs : s.args.sameAs s'.args = true) (h : U.Hop s t) :
    ∃ t', U.Hop s' t' ∧ t'.definition = t.definition ∧ t'.nullable = t.nullable ∧
      t.args.sameAs t'.args = true := by
  obtain ⟨i, hi, hr⟩ := h
  obtain ⟨args, hremap, rfl⟩ := Instance.remap_eq_ok_iff.mp hr
  have hadmits := (admits_toExpr.mp (hU.admits_of_mem_supertypes hi)).2
  obtain ⟨args', hremap', hsame⟩ := hadmits.remap_congr hadmits hadmits.sameAs_refl hargs hremap
  refine ⟨{ i with args := args' }, ⟨i, hd ▸ hi, ?_⟩, rfl, rfl, hsame⟩
  exact Instance.remap_eq_ok_iff.mpr ⟨args', hremap', rfl⟩

theorem Coherent.exists_path (hU : U.Coherent) {s s' t : Instance} {nodes : List Instance}
    (hd : s'.definition = s.definition) (hargs : s.args.sameAs s'.args = true)
    (h : U.Path s nodes t) :
    ∃ nodes' t', U.Path s' nodes' t' ∧ t'.definition = t.definition ∧
      t.args.sameAs t'.args = true ∧
      (s'.nullable = false → (∀ n ∈ nodes, n.nullable = false) →
        ∀ n ∈ nodes', n.nullable = false) := by
  induction h generalizing s' with
  | here s =>
    exact ⟨[s'], s', .here s', hd, hargs, fun hn _ => List.forall_mem_singleton.mpr hn⟩
  | up hop hpath ih =>
    obtain ⟨u, hop', hdu, hnu, hargsu⟩ := hU.exists_hop hd hargs hop
    obtain ⟨nodes', t', hpath', hdt, hargst, hnull⟩ := ih hdu hargsu
    refine ⟨s' :: nodes', t', .up hop' hpath', hdt, hargst, fun hn hnodes => ?_⟩
    have htail := (List.forall_mem_cons.mp hnodes).2
    have hu := htail _ hpath.start_mem
    exact List.forall_mem_cons.mpr ⟨hn, hnull (hnu.trans hu) htail⟩

theorem Coherent.fits_trans (hU : U.Coherent) {a b c : Instance} (hab : U.Fits a b)
    (hbc : U.Fits b c) : U.Fits a c := by
  obtain ⟨lower, b', hlower, hdb, hargsb, hnlower⟩ := hbc
  obtain ⟨upper, a', hupper, hda, hargsa, hnupper⟩ := hab
  obtain ⟨nodes, a'', hnodes, hda', hargsa', hnnodes⟩ := hU.exists_path hdb hargsb hupper
  refine ⟨lower.dropLast ++ nodes, a'', hlower.append hnodes, hda'.trans hda,
    Bindings.sameAs_trans hargsa hargsa', fun hn n hmem => ?_⟩
  have hb := hnupper hn b hupper.start_mem
  rcases List.mem_append.mp hmem with hmem | hmem
  · exact hnlower hb n (List.dropLast_subset _ hmem)
  · exact hnnodes (hnlower hb b' hlower.end_mem) (hnupper hn) n hmem

theorem Coherent.sameAs_of_fits (hU : U.Coherent) {a b : Instance} (hab : U.Fits a b)
    (hba : U.Fits b a) : a.toExpr.sameAs b.toExpr = true := by
  obtain ⟨nodes, a', hpath, hda, hargs, hnodes⟩ := hab
  obtain ⟨nodes', b', hpath', hdb, _, hnodes'⟩ := hba
  have hnull : a.nullable = b.nullable := by
    cases ha : a.nullable with
    | false => exact (hnodes ha b hpath.start_mem).symm
    | true =>
      cases hb : b.nullable with
      | false => exact (hnodes' hb a hpath'.start_mem ▸ ha).symm
      | true => rfl
  have heq : b = a' := by
    rcases transGen_of_path hpath with h | h
    · exact h
    · rw [hda] at h
      rcases transGen_of_path hpath' with rfl | h'
      · exact absurd (hdb ▸ h) (hU.not_transGen_link _)
      · exact absurd (h'.trans (hdb ▸ h)) (hU.not_transGen_link _)
  rw [← heq] at hda hargs
  exact TypeExpr.sameAs_inst_iff.mpr ⟨hnull, Definition.sameAs_iff.mpr (hda ▸ rfl), hargs⟩

/-! ## The limit -/

theorem acceptsFrom_stable (hle : levels ≤ levels')
    (h : ¬ HitsLimit (U.acceptsFrom limit target levels source)) :
    U.acceptsFrom limit' target levels' source = U.acceptsFrom limit target levels source := by
  induction levels generalizing levels' source with
  | zero => exact absurd hitsLimit_recursionLimit h
  | succ k ih =>
    obtain ⟨k', rfl⟩ : ∃ k', levels' = k' + 1 := ⟨levels' - 1, by omega⟩
    rcases U.acceptsFrom_step target source with ⟨answer, hanswer⟩ | hup
    · rw [hanswer, hanswer]
    · rw [hup] at h ⊢
      rw [hup]
      apply anyM_eq_of_not_hitsLimit h
      intro i _ hi
      rw [hitsLimit_bind_iff, not_or] at hi
      cases hr : i.remap source.args with
      | error e => rfl
      | ok above =>
        have habove : ¬ HitsLimit (U.acceptsFrom limit target k above) :=
          fun hlimit => hi.2 ⟨above, hr, hlimit⟩
        exact ih (by omega) habove

theorem acceptsFrom_eq_error {f : Fault}
    (h : U.acceptsFrom limit target levels source = .error f) :
    ∃ nodes found, U.Path source nodes found ∧
      (f = .recursionLimit limit (.assigningTo target) ∧ nodes.length = levels + 1 ∨
        ∃ i ∈ U.supertypes found.definition, i.remap found.args = .error f) := by
  induction levels generalizing source with
  | zero =>
    cases h
    exact ⟨[source], source, .here source, .inl ⟨rfl, rfl⟩⟩
  | succ levels ih =>
    rcases U.acceptsFrom_step target source with ⟨answer, hanswer⟩ | hup
    · rw [hanswer] at h
      cases h
    · rw [hup] at h
      obtain ⟨i, hi, h⟩ := exists_of_anyM_eq_error h
      have hi := mem_supertypes_of_mem_candidates hi
      rcases bind_eq_error_iff.mp h with h | ⟨above, hr, h⟩
      · exact ⟨[source], source, .here source, .inr ⟨i, hi, h⟩⟩
      · obtain ⟨nodes, found, hpath, hcause⟩ := ih h
        refine ⟨source :: nodes, found, .up ⟨i, hi, hr⟩ hpath, hcause.imp_left ?_⟩
        rintro ⟨hf, hlen⟩
        exact ⟨hf, by rw [List.length_cons, hlen]⟩

theorem path_of_acceptsFrom_hitsLimit (h : HitsLimit (U.acceptsFrom limit target levels source)) :
    ∃ nodes found, U.Path source nodes found ∧ nodes.length = levels + 1 := by
  obtain ⟨l, a, hf⟩ := h
  obtain ⟨nodes, found, hpath, ⟨_, hlen⟩ | ⟨i, _, hr⟩⟩ := acceptsFrom_eq_error hf
  · exact ⟨nodes, found, hpath, hlen⟩
  · exact absurd ⟨l, a, hr⟩ Instance.not_hitsLimit_remap

/-! ## Arguments for all parameters -/

theorem Full.binds {s : Instance} (hs : U.Full s) {x : String}
    (h : Parameter.declares (U.parameters s.definition) x = true) : s.args.binds x = true := by
  obtain ⟨p, hp, hname⟩ := List.any_eq_true.mp h
  rw [← beq_iff_eq.mp hname]
  exact hs p hp

/-- The variables of a body are parameters, so arguments for all of these do. -/
theorem Coherent.exists_substitute (hU : U.Coherent) {s : Instance} (hs : U.Full s) {t : TypeExpr}
    (ht : t ∈ (U.body s.definition).types) : ∃ u, t.substitute s.args = .ok u :=
  TypeExpr.exists_substitute fun _ hv =>
    hs.binds (hU.declares_of_mem_types ht (TypeExpr.occurrences_subset_references t hv))

theorem Coherent.exists_remap (hU : U.Coherent) {s i : Instance} (hs : U.Full s)
    (hi : i ∈ U.supertypes s.definition) : ∃ t, i.remap s.args = .ok t := by
  obtain ⟨u, hu⟩ := hU.exists_substitute hs (Body.supertype_mem_types hi)
  obtain ⟨t, ht, _⟩ := Instance.substitute_toExpr.mp hu
  exact ⟨t, ht⟩

theorem Full.remap {i j : Instance} {outer : Bindings} (hi : U.Full i)
    (h : i.remap outer = .ok j) : U.Full j := by
  obtain ⟨args, hargs, rfl⟩ := Instance.remap_eq_ok_iff.mp h
  intro p hp
  rw [Bindings.binds_iff, Bindings.remap_names hargs, ← Bindings.binds_iff]
  exact hi p hp

/-- Where all declared supertypes bind all parameters, so do all that are reached from a type that
does. -/
theorem Coherent.full_of_path (hU : U.Coherent) {s : Instance}
    (hall : ∀ d ∈ U.definitions, ∀ i ∈ U.supertypes d, U.Full i) (hd : s.definition ∈ U.definitions)
    (hs : U.Full s) {nodes : List Instance} {top : Instance} (h : U.Path s nodes top) :
    U.Full top := by
  have hnodes := h.forall_mem (P := fun n => n.definition ∈ U.definitions ∧ U.Full n) ⟨hd, hs⟩
    fun a b hab ha => by
      obtain ⟨i, hi, hr⟩ := hab
      exact ⟨hU.mem_of_link (Hop.link ⟨i, hi, hr⟩), (hall _ ha.1 i hi).remap hr⟩
  exact (hnodes top h.end_mem).2

theorem Coherent.exists_acceptsFrom_eq_ok (hU : U.Coherent)
    (hlen : ∀ nodes found, U.Path source nodes found → nodes.length ≤ levels)
    (hfull : ∀ nodes found, U.Path source nodes found → U.Full found) :
    ∃ r, U.acceptsFrom limit target levels source = .ok r := by
  cases h : U.acceptsFrom limit target levels source with
  | ok r => exact ⟨r, rfl⟩
  | error f =>
    exfalso
    obtain ⟨nodes, found, hpath, ⟨_, hnodes⟩ | ⟨i, hi, hr⟩⟩ := acceptsFrom_eq_error h
    · have hle := hlen nodes found hpath
      omega
    · obtain ⟨t, ht⟩ := hU.exists_remap (hfull nodes found hpath) hi
      rw [hr] at ht
      cases ht

end Universe

end NominalTypes
