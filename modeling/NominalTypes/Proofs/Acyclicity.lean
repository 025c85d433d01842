import NominalTypes.Lookup
import NominalTypes.Proofs.Coherence
import Mathlib.Data.List.Perm.Subperm
import Mathlib.Order.WellFounded

/-!
# No cycles of supertypes

In a coherent universe:

* `Universe.Coherent.not_transGen_link`: no definition is among its own supertypes;
* `Universe.Coherent.length_le_of_isChain`, `Universe.Coherent.length_le_of_path`: a way up is no
  longer than the list of declarations;
* `Universe.Coherent.collects_iff`: the loop that gathers property names ends without a bound on its
  rounds, with `Universe.propertyNames`.
-/

namespace NominalTypes

namespace Universe

variable {U : Universe} {d e : Definition}

/-! ## Chains of links -/

theorem Coherent.not_transGen_link (hU : U.Coherent) (d : Definition) :
    ¬ Relation.TransGen U.Link d d := by
  intro h
  have hwf : WellFounded (Relation.TransGen fun e d => U.Link d e) := hU.wellFounded.transGen
  have hswap : Relation.TransGen (fun e d => U.Link d e) d d := Relation.transGen_swap.mpr h
  exact hwf.irrefl.irrefl d hswap

theorem Coherent.mem_of_link (hU : U.Coherent) (h : U.Link d e) : e ∈ U.definitions := by
  obtain ⟨i, hi, rfl⟩ := h
  exact (admits_toExpr.mp (hU.admits_of_mem_supertypes hi)).1

theorem Coherent.nodup_of_isChain (hU : U.Coherent) {l : List Definition}
    (h : l.IsChain U.Link) : l.Nodup := by
  have hchain : l.IsChain (Relation.TransGen U.Link) := h.imp fun _ _ => .single
  refine (List.isChain_iff_pairwise.mp hchain).imp ?_
  rintro a b hab rfl
  exact hU.not_transGen_link a hab

theorem Coherent.length_le_of_isChain (hU : U.Coherent) {l : List Definition}
    (hl : ∀ d ∈ l, d ∈ U.definitions) (h : l.IsChain U.Link) : l.length ≤ U.entries.size := by
  have hle := ((hU.nodup_of_isChain h).subperm hl).length_le
  simpa [definitions] using hle

theorem Coherent.mem_of_isChain (hU : U.Coherent) {l : List Definition} (hd : d ∈ U.definitions)
    (h : (d :: l).IsChain U.Link) : ∀ e ∈ d :: l, e ∈ U.definitions := by
  induction l generalizing d with
  | nil => exact List.forall_mem_singleton.mpr hd
  | cons e rest ih =>
    obtain ⟨hde, hrest⟩ := List.isChain_cons_cons.mp h
    exact List.forall_mem_cons.mpr ⟨hd, ih (hU.mem_of_link hde) hrest⟩

theorem Coherent.length_le_of_path (hU : U.Coherent) {s t : Instance} {nodes : List Instance}
    (hs : s.definition ∈ U.definitions) (h : U.Path s nodes t) :
    nodes.length ≤ U.entries.size := by
  have hknown := h.forall_mem (P := fun i => i.definition ∈ U.definitions) hs
    fun a b hab _ => hU.mem_of_link hab.link
  have hle := hU.length_le_of_isChain (l := nodes.map (·.definition)) ?_ (isChain_of_path h)
  · rwa [List.length_map] at hle
  · intro d hd
    obtain ⟨i, hi, rfl⟩ := List.mem_map.mp hd
    exact hknown i hi

/-! ## Property names -/

/-- Append the names that are not there yet. -/
def pushNew (names new : List String) : List String :=
  new.foldl (fun names n => if names.contains n then names else names ++ [n]) names

/-- The loop over a definition and its parents as it runs, for as long as there is a parent:
`names` were collected before. -/
inductive Collects (U : Universe) : Option Definition → List String → List String → Prop where
  | done (names : List String) : Collects U none names names
  | level {d : Definition} {names result : List String} :
    Collects U ((U.parent? d).map (·.definition)) (pushNew names ((U.properties d).map (·.1)))
      result →
    Collects U (some d) names result

theorem pushNew_append (names new more : List String) :
    pushNew names (new ++ more) = pushNew (pushNew names new) more := by
  rw [pushNew, List.foldl_append, ← pushNew, ← pushNew]

theorem pushNew_eraseDups (names new : List String) :
    pushNew names.eraseDups new = (names ++ new).eraseDups := by
  induction new generalizing names with
  | nil => rw [List.append_nil, pushNew, List.foldl_nil]
  | cons n rest ih =>
    have hstep : pushNew names.eraseDups [n] = (names ++ [n]).eraseDups := by
      rw [List.eraseDups_append]
      by_cases hn : n ∈ names
      · simp [pushNew, List.removeAll, hn]
      · simp [pushNew, List.removeAll, hn, List.eraseDups_cons]
    rw [← List.singleton_append, pushNew_append, hstep, ih, List.append_assoc]

theorem Collects.unique {current : Option Definition} {names result result' : List String}
    (h : U.Collects current names result) (h' : U.Collects current names result') :
    result = result' := by
  induction h with
  | done names =>
    cases h'
    rfl
  | level _ ih =>
    cases h' with
    | level h' => exact ih h'

/-- As many levels as the longest way up are enough. -/
theorem collects_namesFrom {levels : Nat} (d : Definition) (names : List String)
    (h : ∀ l, (d :: l).IsChain U.Link → l.length < levels) :
    U.Collects (some d) names (pushNew names (U.namesFrom levels d)) := by
  induction levels generalizing d names with
  | zero => exact absurd (h [] (.singleton d)) (Nat.not_lt_zero _)
  | succ levels ih =>
    rw [namesFrom, pushNew_append]
    refine .level ?_
    cases hp : U.parent? d with
    | none => exact .done _
    | some parent =>
      apply ih
      intro l hl
      have hlink : U.Link d parent.definition :=
        ⟨parent, mem_supertypes_iff.mpr (.inl hp), rfl⟩
      have hlen := h (parent.definition :: l) (.cons_cons hlink hl)
      rw [List.length_cons] at hlen
      omega

/-- The loop ends, and with nothing but the names of the search that stops at a bound. -/
theorem Coherent.collects_iff (hU : U.Coherent) (hd : d ∈ U.definitions) {result : List String} :
    U.Collects (some d) [] result ↔ result = U.propertyNames d := by
  have hends : U.Collects (some d) [] (U.propertyNames d) := by
    have hbound (l : List Definition) (hl : (d :: l).IsChain U.Link) :
        l.length < U.entries.size := by
      have hle := hU.length_le_of_isChain (hU.mem_of_isChain hd hl) hl
      rw [List.length_cons] at hle
      omega
    have h := collects_namesFrom d [] hbound
    have hpush := pushNew_eraseDups [] (U.namesFrom U.entries.size d)
    rw [List.eraseDups_nil, List.nil_append] at hpush
    rwa [hpush, ← propertyNames] at h
  constructor
  · intro h
    exact h.unique hends
  · rintro rfl
    exact hends

end Universe

end NominalTypes
