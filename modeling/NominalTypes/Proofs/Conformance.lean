import NominalTypes.Proofs.Replay
import NominalTypes.Proofs.Requirements
import NominalTypes.Proofs.Sessions

/-!
# Conformance to interfaces

* `Session.Reachable.conform_judges_iff`: the check says whether the interfaces agree exactly when
  `FirstsAlike` says the same as `Agree`, which it does, in every order of the interfaces, if none of
  them requires two equal types under one name;
* `Overloads.not_judged`: two overloads that a type argument makes equal, and a check that misses a
  requirement or not, depending on the order.
-/

namespace NominalTypes

/-! ## Lists without equal types -/

section Distinct

variable {ts us vs : List TypeExpr}

theorem SameTypes.symm (h : SameTypes ts us) : SameTypes us ts := ⟨h.2, h.1⟩

theorem SameTypes.trans (h : SameTypes ts us) (h' : SameTypes us vs) : SameTypes ts vs := by
  constructor
  · intro t ht
    obtain ⟨u, hu, htu⟩ := h.1 t ht
    obtain ⟨v, hv, huv⟩ := h'.1 u hu
    exact ⟨v, hv, TypeExpr.sameAs_trans htu huv⟩
  · intro v hv
    obtain ⟨u, hu, hvu⟩ := h'.2 v hv
    obtain ⟨t, ht, hut⟩ := h.2 u hu
    exact ⟨t, ht, TypeExpr.sameAs_trans hvu hut⟩

theorem covered_without {l r : List TypeExpr} {u : TypeExpr} (hu : ∀ t ∈ ts, t.sameAs u = false)
    (h : ∀ t ∈ ts, ∃ v ∈ l ++ u :: r, t.sameAs v = true) :
    ∀ t ∈ ts, ∃ v ∈ l ++ r, t.sameAs v = true := by
  intro t ht
  obtain ⟨v, hv, htv⟩ := h t ht
  rcases List.mem_append.mp hv with hv | hv
  · exact ⟨v, List.mem_append_left _ hv, htv⟩
  · rcases List.mem_cons.mp hv with rfl | hv
    · rw [hu t ht] at htv
      cases htv
    · exact ⟨v, List.mem_append_right _ hv, htv⟩

theorem forall_mem_without {P : TypeExpr → Prop} {l r : List TypeExpr} {u : TypeExpr}
    (h : ∀ v ∈ l ++ u :: r, P v) : ∀ v ∈ l ++ r, P v := by
  intro v hv
  have hsub : (l ++ r).Sublist (l ++ u :: r) := (List.sublist_cons_self u r).append_left l
  exact h v (hsub.subset hv)

/-- Among types that differ, no two are covered by the same type. -/
theorem length_le_of_covered (ht : ∀ t ∈ ts, t.Distinct) (hu : ∀ u ∈ us, u.Distinct)
    (hne : ts.Pairwise fun t t' => t.sameAs t' = false)
    (h : ∀ t ∈ ts, ∃ u ∈ us, t.sameAs u = true) : ts.length ≤ us.length := by
  induction ts generalizing us with
  | nil => exact Nat.zero_le _
  | cons t rest ih =>
    obtain ⟨_, hrestd⟩ := List.forall_mem_cons.mp ht
    obtain ⟨hfirst, hrest⟩ := List.pairwise_cons.mp hne
    obtain ⟨⟨u, hmem, htu⟩, hcovered⟩ := List.forall_mem_cons.mp h
    obtain ⟨l, r, rfl⟩ := List.append_of_mem hmem
    have hnot (s : TypeExpr) (hs : s ∈ rest) : s.sameAs u = false := by
      cases hsu : s.sameAs u with
      | false => rfl
      | true =>
        have hus := TypeExpr.sameAs_symm (hrestd s hs) (hu u hmem) hsu
        have hts := TypeExpr.sameAs_trans htu hus
        rw [hfirst s hs] at hts
        cases hts
    have hle := ih hrestd (forall_mem_without hu) hrest (covered_without hnot hcovered)
    simp only [List.length_cons, List.length_append] at hle ⊢
    omega

/-- As many types on both sides, and each of the first among the second: no type of the second can
be left over. -/
theorem sameTypes_of_covered (ht : ∀ t ∈ ts, t.Distinct) (hu : ∀ u ∈ us, u.Distinct)
    (hne : ts.Pairwise fun t t' => t.sameAs t' = false) (hlen : ts.length = us.length)
    (h : ∀ t ∈ ts, ∃ u ∈ us, t.sameAs u = true) : SameTypes ts us := by
  refine ⟨h, ?_⟩
  intro u hmem
  by_contra hnone
  obtain ⟨l, r, rfl⟩ := List.append_of_mem hmem
  have hnot (t : TypeExpr) (htmem : t ∈ ts) : t.sameAs u = false := by
    cases htu : t.sameAs u with
    | false => rfl
    | true =>
      have hut := TypeExpr.sameAs_symm (ht t htmem) (hu u hmem) htu
      exact absurd ⟨t, htmem, hut⟩ hnone
  have hle := length_le_of_covered ht (forall_mem_without hu) hne (covered_without hnot h)
  simp only [List.length_cons, List.length_append] at hle hlen
  omega

end Distinct

/-! ## First interfaces and all interfaces -/

section Agreement

variable {required : Instance → List (String × TypeExpr)} {interfaces : List Instance}

/-- No interface requires two equal types under one name. -/
def Separate (required : Instance → List (String × TypeExpr)) (interfaces : List Instance) : Prop :=
  ∀ i ∈ interfaces, ∀ name,
    (typesNamed name (required i)).Pairwise fun t t' => t.sameAs t' = false

theorem distinct_typesNamed (hd : ∀ i ∈ interfaces, ∀ p ∈ required i, p.2.Distinct) {i : Instance}
    (hi : i ∈ interfaces) (name : String) : ∀ t ∈ typesNamed name (required i), t.Distinct :=
  fun t ht => hd i hi (name, t) (mem_typesNamed_iff.mp ht)

theorem firstsAlike_iff_agree (hd : ∀ i ∈ interfaces, ∀ p ∈ required i, p.2.Distinct)
    (hs : Separate required interfaces) :
    FirstsAlike required interfaces ↔ Agree required interfaces := by
  constructor
  · intro h i hi j hj name hni hnj
    obtain ⟨f, hf⟩ := exists_first? hi hni
    have hfmem := (mem_of_first? hf).1
    have hsame (k : Instance) (hk : k ∈ interfaces) (hnk : name ∈ (required k).map (·.1)) :
        SameTypes (typesNamed name (required f)) (typesNamed name (required k)) := by
      obtain ⟨hlen, hcovered⟩ := h name f hf k hk hnk
      exact sameTypes_of_covered (distinct_typesNamed hd hfmem name)
        (distinct_typesNamed hd hk name) (hs f hfmem name) hlen hcovered
    exact (hsame i hi hni).symm.trans (hsame j hj hnj)
  · intro h name f hf j hj hnj
    obtain ⟨hfmem, hnf⟩ := mem_of_first? hf
    obtain ⟨hfj, hjf⟩ := h f hfmem j hj name hnf hnj
    have hle := length_le_of_covered (distinct_typesNamed hd hfmem name)
      (distinct_typesNamed hd hj name) (hs f hfmem name) hfj
    have hge := length_le_of_covered (distinct_typesNamed hd hj name)
      (distinct_typesNamed hd hfmem name) (hs j hj name) hjf
    exact ⟨Nat.le_antisymm hle hge, hfj⟩

theorem Agree.metByFirsts_iff (h : Agree required interfaces)
    (hd : ∀ i ∈ interfaces, ∀ p ∈ required i, p.2.Distinct)
    {properties : List (String × TypeExpr)} :
    MetByFirsts required interfaces properties ↔ Met required interfaces properties := by
  constructor
  · intro hmet i hi r hr
    have hni : r.1 ∈ (required i).map (·.1) := List.mem_map.mpr ⟨r, hr, rfl⟩
    obtain ⟨f, hf⟩ := exists_first? hi hni
    obtain ⟨hfmem, hnf⟩ := mem_of_first? hf
    have hrmem : r.2 ∈ typesNamed r.1 (required i) := mem_typesNamed_iff.mpr hr
    obtain ⟨t, ht, hrt⟩ := (h f hfmem i hi r.1 hnf hni).2 r.2 hrmem
    obtain ⟨p, hp, hname, hpt⟩ := hmet r.1 f hf t ht
    have htr := TypeExpr.sameAs_symm (hd i hi r hr) (distinct_typesNamed hd hfmem r.1 t ht) hrt
    exact ⟨p, hp, hname, TypeExpr.sameAs_trans hpt htr⟩
  · intro hmet name f hf t ht
    exact hmet f (mem_of_first? hf).1 (name, t) (mem_typesNamed_iff.mp ht)

theorem Universe.conform_judges_agree_iff {U : Universe} {limit : Nat} {definition : String}
    {properties : List (String × TypeExpr)}
    (h : ∀ i ∈ interfaces, U.allProperties limit i = .ok (required i))
    (hd : ∀ i ∈ interfaces, ∀ p ∈ required i, p.2.Distinct) :
    Judges (U.conform limit definition interfaces properties) (Agree required interfaces)
        (Met required interfaces properties) ↔
      (FirstsAlike required interfaces ↔ Agree required interfaces) := by
  have hfirsts : Judges (U.conform limit definition interfaces properties)
      (FirstsAlike required interfaces) (MetByFirsts required interfaces properties) :=
    U.conform_judges h hd
  constructor
  · intro hjudges
    have hclash := hfirsts.2.1.symm.trans hjudges.2.1
    exact not_iff_not.mp hclash
  · intro hiff
    by_cases ha : Agree required interfaces
    · have hmet : MetByFirsts required interfaces properties ↔ Met required interfaces properties :=
        ha.metByFirsts_iff hd
      rwa [hiff, hmet] at hfirsts
    · have hclash := hfirsts.2.1.mpr (mt hiff.mp ha)
      exact judges_of_clash hclash ha

theorem agree_iff_of_perm {reordered : List Instance} (hp : reordered.Perm interfaces) :
    Agree required reordered ↔ Agree required interfaces := by
  simp only [Agree, hp.mem_iff]

theorem met_iff_of_perm {reordered : List Instance} (hp : reordered.Perm interfaces)
    {properties : List (String × TypeExpr)} :
    Met required reordered properties ↔ Met required interfaces properties := by
  simp only [Met, hp.mem_iff]

end Agreement

/-! ## The verdict -/

/-- When the check says whether the interfaces agree, and if so, whether all they require is
declared; in particular, when it does so in whatever order they are implemented. -/
theorem Session.Reachable.conform_judges_iff {lenient : Bool} {S : Session}
    (h : Reachable lenient S) {interfaces : List Instance} {limit : Nat}
    {required : Instance → List (String × TypeExpr)}
    (hi : ∀ i ∈ interfaces, .type i.toExpr ∈ S.items)
    (hr : ∀ i ∈ interfaces, S.known.allProperties limit i = .ok (required i))
    (definition : String) (properties : List (String × TypeExpr)) :
    (Judges (S.known.conform limit definition interfaces properties) (Agree required interfaces)
        (Met required interfaces properties) ↔
      (FirstsAlike required interfaces ↔ Agree required interfaces)) ∧
    (Separate required interfaces → ∀ reordered, reordered.Perm interfaces →
      Judges (S.known.conform limit definition reordered properties) (Agree required interfaces)
        (Met required interfaces properties)) := by
  have hd (i : Instance) (hmem : i ∈ interfaces) : ∀ p ∈ required i, p.2.Distinct := by
    intro p hp
    have hadmits := h.wellFormed.items (.type i.toExpr) (hi i hmem)
    have hargs := (Universe.admits_toExpr.mp hadmits).2
    exact (h.wellFormed.coherent.admits_listed hargs (hr i hmem) hp).distinct
  refine ⟨Universe.conform_judges_agree_iff hr hd, ?_⟩
  intro hs reordered hperm
  have hr' : ∀ i ∈ reordered, S.known.allProperties limit i = .ok (required i) :=
    fun i hmem => hr i (hperm.mem_iff.mp hmem)
  have hd' : ∀ i ∈ reordered, ∀ p ∈ required i, p.2.Distinct :=
    fun i hmem => hd i (hperm.mem_iff.mp hmem)
  have hs' : Separate required reordered := fun i hmem => hs i (hperm.mem_iff.mp hmem)
  have hjudges : Judges (S.known.conform limit definition reordered properties)
      (Agree required reordered) (Met required reordered properties) :=
    (Universe.conform_judges_agree_iff hr' hd').mpr (firstsAlike_iff_agree hd' hs')
  rwa [agree_iff_of_perm hperm, met_iff_of_perm hperm] at hjudges

/-! ## Overloads that become equal -/

namespace Overloads

open Command

/-- An interface `I<T, U>` that requires `f` for `T` and for `U`, an interface `J` that requires it
for `A` and for `B`, and the instances `I<T=A, U=A>`, `I<T=A, U=B>` and `J`. -/
def commands : List Command := [
  startDraft "A" .classKind, close 0, startInstantiation 0, construct 1,
  startDraft "B" .classKind, close 3, startInstantiation 1, construct 4,
  startDraft "I" .interfaceKind, addParameter 6 "T", addParameter 7 "U", refer 8 "T", refer 8 "U",
  fn [("x", 9)] 2, fn [("x", 10)] 2, addProperty 8 "f" 11, addProperty 13 "f" 12, close 14,
  startDraft "J" .interfaceKind, fn [("x", 2)] 2, fn [("x", 5)] 2,
  addProperty 15 "f" 16, addProperty 18 "f" 17, close 19,
  startInstantiation 2, bind 20 "T" 2, bind 21 "U" 2, construct 22,
  bind 21 "U" 5, construct 24, startInstantiation 3, construct 26]

def session : Session := (Session.replay? commands).getD {}

def a : TypeExpr := .inst ⟨0, ⟨"default", "A"⟩, .classKind⟩ [] false

def b : TypeExpr := .inst ⟨1, ⟨"default", "B"⟩, .classKind⟩ [] false

def same : Instance := ⟨⟨2, ⟨"default", "I"⟩, .interfaceKind⟩, [("T", a), ("U", a)], false⟩

def apart : Instance := ⟨⟨2, ⟨"default", "I"⟩, .interfaceKind⟩, [("T", a), ("U", b)], false⟩

def both : Instance := ⟨⟨3, ⟨"default", "J"⟩, .interfaceKind⟩, [], false⟩

def required (i : Instance) : List (String × TypeExpr) :=
  (session.known.allProperties 100 i).toOption.getD []

theorem reachable : Session.Reachable true session := by
  have h : Session.replay? commands = some session := rfl
  exact Session.reachable_of_replay? h

theorem same_mem : .type same.toExpr ∈ session.items := Session.mem_of_instance? (n := 23) rfl

theorem apart_mem : .type apart.toExpr ∈ session.items := Session.mem_of_instance? (n := 25) rfl

theorem both_mem : .type both.toExpr ∈ session.items := Session.mem_of_instance? (n := 27) rfl

theorem apart_both_judged :
    Judges (session.known.conform 100 "C" [both, apart] [("f", .fn [("x", a)] a)])
      (Agree required [apart, both]) (Met required [apart, both] [("f", .fn [("x", a)] a)]) := by
  have hi : ∀ i ∈ [apart, both], .type i.toExpr ∈ session.items :=
    List.forall_mem_cons.mpr ⟨apart_mem, List.forall_mem_singleton.mpr both_mem⟩
  have hr : ∀ i ∈ [apart, both], session.known.allProperties 100 i = .ok (required i) :=
    List.forall_mem_cons.mpr ⟨rfl, List.forall_mem_singleton.mpr rfl⟩
  have hpair (name : String) : (typesNamed name
      [("f", .fn [("x", a)] a), ("f", .fn [("x", b)] a)]).Pairwise
        fun t t' => t.sameAs t' = false := by
    by_cases hname : name = "f"
    · subst hname
      decide
    · simp [typesNamed, Ne.symm hname]
  have hs : Separate required [apart, both] :=
    List.forall_mem_cons.mpr ⟨hpair, List.forall_mem_singleton.mpr hpair⟩
  exact (reachable.conform_judges_iff hi hr "C" _).2 hs [both, apart] (List.Perm.swap ..)

/-- `I<T=A, U=A>` requires `f` for `A` only, though twice, and `J` for `B` too: nothing is reported
in one order, and a clash in the other. -/
theorem not_judged :
    Session.Reachable true session ∧
    (∀ i ∈ [same, both], .type i.toExpr ∈ session.items ∧
      session.known.allProperties 100 i = .ok (required i)) ∧
    ¬ Agree required [same, both] ∧ ¬ Met required [same, both] [("f", .fn [("x", a)] a)] ∧
    session.known.conform 100 "C" [same, both] [("f", .fn [("x", a)] a)] = .ok () ∧
    IsClash (session.known.conform 100 "C" [both, same] [("f", .fn [("x", a)] a)]) ∧
    ¬ Judges (session.known.conform 100 "C" [same, both] [("f", .fn [("x", a)] a)])
      (Agree required [same, both]) (Met required [same, both] [("f", .fn [("x", a)] a)]) := by
  have hconform :
      session.known.conform 100 "C" [same, both] [("f", .fn [("x", a)] a)] = .ok () := rfl
  have hb : ("f", .fn [("x", b)] a) ∈ required both := List.mem_cons_of_mem _ List.mem_cons_self
  have hsame : same ∈ [same, both] := List.mem_cons_self
  have hboth : both ∈ [same, both] := List.mem_cons_of_mem _ List.mem_cons_self
  have hagree : ¬ Agree required [same, both] := by
    intro h
    have htypes := h same hsame both hboth "f" (by decide) (by decide)
    obtain ⟨t, ht, hbt⟩ := htypes.2 (.fn [("x", b)] a) (mem_typesNamed_iff.mpr hb)
    revert t
    decide
  have hmet : ¬ Met required [same, both] [("f", .fn [("x", a)] a)] := by
    intro h
    obtain ⟨p, hp, _, hpb⟩ := h both hboth _ hb
    obtain rfl := List.mem_singleton.mp hp
    revert hpb
    decide
  refine ⟨reachable, ?_, hagree, hmet, hconform, ⟨_, _, _, _, rfl⟩, fun h => ?_⟩
  · exact List.forall_mem_cons.mpr
      ⟨⟨same_mem, rfl⟩, List.forall_mem_singleton.mpr ⟨both_mem, rfl⟩⟩
  · exact hagree (h.1.mp hconform).1

end Overloads

end NominalTypes
