import NominalTypes.Proofs.Replay
import NominalTypes.Proofs.Subtyping

/-!
# The order of the search

Assignability is searched depth first, the parent of a type before its interfaces.  A branch that
goes on above the depth limit ends the search, even where a later one would have led to the target.

* `Universe.Branch`: a way that the search can take, as the place of each choice among the
  candidates, so that branches are tried in the lexicographic order of their places;
* `Universe.FirstWithin`: a branch leads to the target within the limit, and none that is too long
  comes before it;
* `Universe.acceptsFrom_eq_true_iff`: this is when the search succeeds;
* `Session.Reachable.recognised_within_limit`: what becomes of a supertype within the limit;
* `Detours.not_always_recognised`: a supertype one hop up that is not recognised.
-/

namespace NominalTypes

namespace Universe

variable {U : Universe} {limit levels : Nat} {target source top : Instance} {places : List Nat}

/-! ## Branches -/

/-- The search goes on above the type. -/
def Passes (target source : Instance) : Prop :=
  (source.nullable && !target.nullable) = false ∧
    target.definition.sameAs source.definition = false

/-- The search ends at the type with success. -/
def Meets (target source : Instance) : Prop :=
  (source.nullable && !target.nullable) = false ∧
    target.definition.sameAs source.definition = true ∧ target.args.sameAs source.args = true

/-- A way up from a type, as far as it was followed: of each supertype taken the place among the
candidates of its level, where a parent stands before the interfaces. -/
inductive Branch (U : Universe) (target : Instance) : Instance → List Nat → Instance → Prop where
  | here (s : Instance) : Branch U target s [] s
  | up {s i t top : Instance} {place : Nat} {places : List Nat} : Passes target s →
    (U.candidates target.definition s.definition)[place]? = some i → i.remap s.args = .ok t →
    Branch U target t places top → Branch U target s (place :: places) top

/-- A branch of at most `levels` types, the source included, leads to the target, and no branch of
more types comes before it. -/
def FirstWithin (U : Universe) (levels : Nat) (target source : Instance) : Prop :=
  ∃ places top, U.Branch target source places top ∧ Meets target top ∧ places.length < levels ∧
    ∀ longer high, U.Branch target source longer high → longer.length = levels → ¬ longer < places

theorem Branch.path (h : U.Branch target source places top) :
    ∃ nodes, U.Path source nodes top ∧ nodes.length = places.length + 1 := by
  induction h with
  | here s => exact ⟨[s], .here s, rfl⟩
  | @up s i t top place places _ hi hr _ ih =>
    obtain ⟨nodes, hpath, hlen⟩ := ih
    have hmem := mem_supertypes_of_mem_candidates (List.mem_of_getElem? hi)
    exact ⟨s :: nodes, .up ⟨i, hmem, hr⟩ hpath, by rw [List.length_cons, List.length_cons, hlen]⟩

/-! ## Branches and the search -/

/-- A search that comes out without success has followed every branch to its end. -/
theorem acceptsFrom_ne_false (h : U.Branch target source places top)
    (hlen : places.length = levels) : U.acceptsFrom limit target levels source ≠ .ok false := by
  induction h generalizing levels with
  | here s =>
    obtain rfl : levels = 0 := hlen.symm
    exact nofun
  | @up s i t top place places hpasses hi hr _ ih =>
    obtain ⟨levels, rfl⟩ : ∃ n, levels = n + 1 := ⟨places.length, by simpa using hlen.symm⟩
    intro hfalse
    rw [acceptsFrom_up hpasses.1 hpasses.2, anyM_eq_false_iff] at hfalse
    have hi' := hfalse i (List.mem_of_getElem? hi)
    rw [hr] at hi'
    exact ih (by simpa using hlen) hi'

/-- The arguments that a supertype needs are there, all the way up. -/
def Resolves (U : Universe) (source : Instance) : Prop :=
  ∀ nodes top, U.Path source nodes top → ∀ i ∈ U.supertypes top.definition,
    ∃ t, i.remap top.args = .ok t

theorem Resolves.up (h : U.Resolves source) {t : Instance} (hop : U.Hop source t) :
    U.Resolves t :=
  fun nodes top hpath => h (source :: nodes) top (.up hop hpath)

theorem Resolves.candidate (h : U.Resolves source) {i : Instance}
    (hi : i ∈ U.candidates target.definition source.definition) :
    ∃ t, i.remap source.args = .ok t ∧ U.Resolves t := by
  have hmem := mem_supertypes_of_mem_candidates hi
  obtain ⟨t, ht⟩ := h [source] source (.here source) i hmem
  exact ⟨t, ht, h.up ⟨i, hmem, ht⟩⟩

/-- The search fails only on a branch that is too long. -/
theorem exists_branch_of_eq_error (hs : U.Resolves source) {e : Fault}
    (h : U.acceptsFrom limit target levels source = .error e) :
    e = .recursionLimit limit (.assigningTo target) ∧
      ∃ places top, U.Branch target source places top ∧ places.length = levels := by
  induction levels generalizing source with
  | zero =>
    cases h
    exact ⟨rfl, [], source, .here source, rfl⟩
  | succ levels ih =>
    cases hn : source.nullable && !target.nullable with
    | true =>
      rw [acceptsFrom_nullable hn] at h
      cases h
    | false =>
      cases hd : target.definition.sameAs source.definition with
      | true =>
        rw [acceptsFrom_reached hn hd] at h
        cases h
      | false =>
        rw [acceptsFrom_up hn hd] at h
        obtain ⟨i, hi, h⟩ := exists_of_anyM_eq_error h
        obtain ⟨t, ht, hresolves⟩ := hs.candidate hi
        rw [ht] at h
        obtain ⟨he, places, top, hbranch, hlen⟩ := ih hresolves h
        obtain ⟨place, hplace⟩ := List.getElem?_of_mem hi
        refine ⟨he, place :: places, top, .up ⟨hn, hd⟩ hplace ht hbranch, ?_⟩
        rw [List.length_cons, hlen]

/-- The candidates before the one that leads to the target have failed, so no branch above them is
too long. -/
theorem firstWithin_of_acceptsFrom (h : U.acceptsFrom limit target levels source = .ok true) :
    U.FirstWithin levels target source := by
  induction levels generalizing source with
  | zero => cases h
  | succ levels ih =>
    cases hn : source.nullable && !target.nullable with
    | true =>
      rw [acceptsFrom_nullable hn] at h
      cases h
    | false =>
      cases hd : target.definition.sameAs source.definition with
      | true =>
        rw [acceptsFrom_reached hn hd] at h
        refine ⟨[], source, .here source, ⟨hn, hd, Except.ok.inj h⟩, Nat.succ_pos levels, ?_⟩
        exact fun longer high _ _ => List.not_lt_nil longer
      | false =>
        rw [acceptsFrom_up hn hd] at h
        obtain ⟨place, i, hi, htrue, hbefore⟩ := exists_getElem?_of_anyM_eq_true h
        obtain ⟨t, ht, htrue⟩ := bind_eq_ok_iff.mp htrue
        obtain ⟨places, top, hbranch, hmeets, hlen, hfirst⟩ := ih htrue
        refine ⟨place :: places, top, .up ⟨hn, hd⟩ hi ht hbranch, hmeets, Nat.succ_lt_succ hlen, ?_⟩
        intro longer high hlonger hlevels hlt
        cases hlonger with
        | here => cases hlevels
        | @up _ j u _ place' places' _ hj hu hlonger =>
          have hlevels' : places'.length = levels := by simpa using hlevels
          rcases List.cons_lt_cons_iff.mp hlt with hplace | ⟨rfl, hrest⟩
          · have hfalse := hbefore place' hplace j hj
            rw [hu] at hfalse
            exact acceptsFrom_ne_false hlonger hlevels' hfalse
          · rw [hi] at hj
            cases hj
            rw [ht] at hu
            cases hu
            exact hfirst places' high hlonger hlevels' hrest

/-- A candidate before the one that leads to the target fails: a branch above it that is too long
would come first. -/
theorem acceptsFrom_of_firstWithin (hs : U.Resolves source)
    (h : U.FirstWithin levels target source) :
    U.acceptsFrom limit target levels source = .ok true := by
  induction levels generalizing source with
  | zero =>
    obtain ⟨_, _, _, _, hlen, _⟩ := h
    exact absurd hlen (Nat.not_lt_zero _)
  | succ levels ih =>
    obtain ⟨places, top, hbranch, hmeets, hlen, hfirst⟩ := h
    cases hbranch with
    | here =>
      rw [acceptsFrom_reached hmeets.1 hmeets.2.1, hmeets.2.2]
    | @up _ i t _ place places hp hi ht hbranch =>
      rw [acceptsFrom_up hp.1 hp.2]
      refine anyM_eq_true_of_getElem? hi ?_ fun m hm j hj => ?_
      · have hmem := mem_supertypes_of_mem_candidates (List.mem_of_getElem? hi)
        rw [ht]
        refine ih (hs.up ⟨i, hmem, ht⟩) ⟨places, top, hbranch, hmeets, by simpa using hlen, ?_⟩
        intro longer high hlonger hlevels hlt
        refine hfirst (place :: longer) high (.up hp hi ht hlonger) ?_ ?_
        · rw [List.length_cons, hlevels]
        · exact List.cons_lt_cons_iff.mpr (.inr ⟨rfl, hlt⟩)
      · obtain ⟨u, hu, hresolves⟩ := hs.candidate (List.mem_of_getElem? hj)
        rw [hu]
        cases hanswer : U.acceptsFrom limit target levels u with
        | ok answer => exact ⟨answer, hanswer⟩
        | error e =>
          obtain ⟨_, longer, high, hlonger, hlevels⟩ := exists_branch_of_eq_error hresolves hanswer
          have hlt : m :: longer < place :: places := List.cons_lt_cons_iff.mpr (.inl hm)
          refine absurd hlt (hfirst (m :: longer) high (.up hp hj hu hlonger) ?_)
          rw [List.length_cons, hlevels]

/-- The search succeeds exactly if it gets to the target before it gets too high. -/
theorem acceptsFrom_eq_true_iff (hs : U.Resolves source) :
    U.acceptsFrom limit target levels source = .ok true ↔ U.FirstWithin levels target source :=
  ⟨firstWithin_of_acceptsFrom, acceptsFrom_of_firstWithin hs⟩

/-! ## Branches and paths -/

/-- A supertype path that leads to the target can be searched, as far as it goes: since the way up
from a definition does not come back to it, the search does not stop before the end. -/
theorem Coherent.branch_of_path (hU : U.Coherent) (hu : U.Unambiguous)
    (ht : target.definition ∈ U.definitions) (hs : source.definition ∈ U.definitions)
    {found : Instance} {nodes : List Instance} (hpath : U.Path source nodes found)
    (hfound : found.definition = target.definition) (hargs : target.args.sameAs found.args = true)
    (hnodes : target.nullable = false → ∀ n ∈ nodes, n.nullable = false) :
    ∃ places, U.Branch target source places found ∧ Meets target found ∧
      nodes.length = places.length + 1 := by
  have hnull {s : Instance} {nodes : List Instance} (hmem : s ∈ nodes)
      (hnodes : target.nullable = false → ∀ n ∈ nodes, n.nullable = false) :
      (s.nullable && !target.nullable) = false := by
    cases htn : target.nullable with
    | true => simp
    | false => simp [hnodes htn s hmem]
  induction hpath with
  | here s =>
    refine ⟨[], .here s, ⟨hnull List.mem_cons_self hnodes, ?_, hargs⟩, rfl⟩
    exact Definition.sameAs_iff.mpr (hfound ▸ rfl)
  | @up s t found nodes hop hpath ih =>
    have hrest (htn : target.nullable = false) : ∀ n ∈ nodes, n.nullable = false :=
      (List.forall_mem_cons.mp (hnodes htn)).2
    obtain ⟨places, hbranch, hmeets, hlen⟩ := ih (hU.mem_of_link hop.link) hfound hargs hrest
    have hd : target.definition.sameAs s.definition = false := by
      cases hsame : target.definition.sameAs s.definition with
      | false => rfl
      | true =>
        have heq : found.definition = s.definition := hfound.trans (hu.eq_of_sameAs ht hs hsame)
        have hup : Relation.TransGen U.Link s.definition found.definition := by
          rcases transGen_of_path hpath with rfl | hrest
          · exact .single hop.link
          · exact .head hop.link hrest
        exact absurd (heq ▸ hup) (hU.not_transGen_link s.definition)
    obtain ⟨i, hi, hr⟩ := hop
    obtain ⟨place, hplace⟩ := List.getElem?_of_mem (hU.mem_candidates hs hi hr hpath hfound)
    have hpasses : Passes target s := ⟨hnull List.mem_cons_self hnodes, hd⟩
    exact ⟨place :: places, .up hpasses hplace hr hbranch, hmeets, by simp [hlen]⟩

/-- A class is searched for along parents only, so there is only one way up. -/
theorem Branch.eq_zero (h : U.Branch target source places top)
    (hclass : target.definition.isInterface = false) : ∀ place ∈ places, place = 0 := by
  induction h with
  | here => exact fun place hplace => absurd hplace List.not_mem_nil
  | @up s i _ _ place _ _ hi _ _ ih =>
    refine List.forall_mem_cons.mpr ⟨?_, ih⟩
    rw [candidates_of_class hclass] at hi
    have hlt := (List.getElem?_eq_some_iff.mp hi).1
    have hle : (U.parent? s.definition).toList.length ≤ 1 := by
      cases U.parent? s.definition <;> simp
    omega

theorem length_lt_of_zeros {l r : List Nat} (hl : ∀ n ∈ l, n = 0) (hr : ∀ n ∈ r, n = 0)
    (h : l < r) : l.length < r.length := by
  induction l generalizing r with
  | nil =>
    cases r with
    | nil => exact absurd h (List.not_lt_nil [])
    | cons b r => exact Nat.succ_pos _
  | cons a l ih =>
    cases r with
    | nil => exact absurd h (List.not_lt_nil _)
    | cons b r =>
      obtain ⟨rfl, hl'⟩ := List.forall_mem_cons.mp hl
      obtain ⟨rfl, hr'⟩ := List.forall_mem_cons.mp hr
      rcases List.cons_lt_cons_iff.mp h with h | ⟨_, h⟩
      · exact absurd h (Nat.lt_irrefl 0)
      · exact Nat.succ_lt_succ (ih hl' hr' h)

theorem Branch.firstWithin_of_class (h : U.Branch target source places top)
    (hmeets : Meets target top) (hlen : places.length < levels)
    (hclass : target.definition.isInterface = false) : U.FirstWithin levels target source := by
  refine ⟨places, top, h, hmeets, hlen, fun longer high hlonger hlevels hlt => ?_⟩
  have hlength := length_lt_of_zeros (hlonger.eq_zero hclass) (h.eq_zero hclass) hlt
  omega

theorem Branch.firstWithin_of_short (h : U.Branch target source places top)
    (hmeets : Meets target top) (hlen : places.length < levels)
    (hshort : ∀ nodes high, U.Path source nodes high → nodes.length ≤ levels) :
    U.FirstWithin levels target source := by
  refine ⟨places, top, h, hmeets, hlen, fun longer high hlonger hlevels _ => ?_⟩
  obtain ⟨nodes, hpath, hnodes⟩ := hlonger.path
  have hle := hshort nodes high hpath
  omega

theorem Coherent.resolves (hU : U.Coherent)
    (hfull : ∀ nodes top, U.Path source nodes top → U.Full top) : U.Resolves source :=
  fun nodes top hpath _ hi => hU.exists_remap (hfull nodes top hpath) hi

end Universe

/-! ## Reachable sessions -/

namespace Session

variable {lenient : Bool} {S : Session}

/-- A supertype that is at most `limit` hops up is recognised unless the search meets the limit
first, and is never denied; it is recognised where nothing else can be too high, and always if it is
a class.  A path of `n` types has `n - 1` hops. -/
theorem Reachable.recognised_within_limit (h : Reachable lenient S) (hu : S.known.Unambiguous)
    {target source : Instance} (ht : .type target.toExpr ∈ S.items)
    (hs : .type source.toExpr ∈ S.items)
    (hfull : ∀ nodes top, S.known.Path source nodes top → S.known.Full top)
    {nodes : List Instance} {found : Instance} (hpath : S.known.Path source nodes found)
    (hfound : found.definition = target.definition) (hargs : target.args.sameAs found.args = true)
    (hnodes : target.nullable = false → ∀ n ∈ nodes, n.nullable = false) {limit : Nat}
    (hlen : nodes.length - 1 ≤ limit) :
    (S.known.accepts limit target source = .ok true ∨
      S.known.accepts limit target source = .error (.recursionLimit limit (.assigningTo target))) ∧
    (S.known.accepts limit target source = .ok true ↔
      S.known.FirstWithin (limit + 1) target source) ∧
    (target.definition.isInterface = false → S.known.accepts limit target source = .ok true) ∧
    ((∀ nodes top, S.known.Path source nodes top → nodes.length - 1 ≤ limit) →
      S.known.accepts limit target source = .ok true) := by
  have hU := h.wellFormed.coherent
  have hdt := h.definition_mem ht
  have hds := h.definition_mem hs
  have hiff : S.known.accepts limit target source = .ok true ↔
      S.known.FirstWithin (limit + 1) target source :=
    Universe.acceptsFrom_eq_true_iff (hU.resolves hfull)
  obtain ⟨places, hbranch, hmeets, hplaces⟩ :=
    hU.branch_of_path hu hdt hds hpath hfound hargs hnodes
  have hwithin : places.length < limit + 1 := by omega
  refine ⟨?_, hiff, ?_, ?_⟩
  · cases haccepts : S.known.accepts limit target source with
    | ok answer =>
      cases answer with
      | true => exact .inl rfl
      | false =>
        have hfits : S.known.Fits target source := ⟨nodes, found, hpath, hfound, hargs, hnodes⟩
        exact absurd hfits (hU.not_fits_of_acceptsFrom hu hdt hds haccepts)
    | error e =>
      exact .inr (congrArg _ (Universe.exists_branch_of_eq_error (hU.resolves hfull) haccepts).1)
  · exact fun hclass => hiff.mpr (hbranch.firstWithin_of_class hmeets hwithin hclass)
  · intro hshort
    refine hiff.mpr (hbranch.firstWithin_of_short hmeets hwithin fun nodes top hpath => ?_)
    have hle := hshort nodes top hpath
    omega

end Session

/-! ## A supertype behind a long branch -/

namespace Detours

open Command

/-- A class `Middle` that extends a class `Top`, and a class `Leaf` that extends `Middle` and
implements an interface `Tag`; an instance of `Tag` and one of `Leaf`. -/
def commands : List Command := [
  startDraft "Top" .classKind, close 0, startInstantiation 0, construct 1,
  startDraft "Middle" .classKind, inherit 3 2, close 4, startInstantiation 1, construct 5,
  startDraft "Tag" .interfaceKind, close 7, startInstantiation 2, construct 8,
  startDraft "Leaf" .classKind, inherit 10 6, implement 11 9, close 12,
  startInstantiation 3, construct 13]

def replayed : Session := (Session.replay? commands).getD {}

def top : Instance := ⟨⟨0, ⟨"default", "Top"⟩, .classKind⟩, [], false⟩

def middle : Instance := ⟨⟨1, ⟨"default", "Middle"⟩, .classKind⟩, [], false⟩

def tag : Instance := ⟨⟨2, ⟨"default", "Tag"⟩, .interfaceKind⟩, [], false⟩

def leaf : Instance := ⟨⟨3, ⟨"default", "Leaf"⟩, .classKind⟩, [], false⟩

/-- What the commands declare. -/
def known : Universe where
  entries := #[
    ⟨top.definition, some {}⟩,
    ⟨middle.definition, some { parent := some top }⟩,
    ⟨tag.definition, some {}⟩,
    ⟨leaf.definition, some { parent := some middle, interfaces := [tag] }⟩]

def session : Session := ⟨known, replayed.items⟩

theorem replayed_known : replayed.known = known := by cbv

theorem session_eq : session = replayed := by rw [session, ← replayed_known]

theorem reachable : Session.Reachable true session := by
  have hsome : (Session.replay? commands).isSome = true := by decide +kernel
  rw [session_eq]
  exact Session.reachable_getD hsome fun _ => Session.reachable_of_replay?

theorem tag_mem : .type tag.toExpr ∈ session.items := by
  rw [session_eq]
  exact Session.mem_of_instance? (n := 9) (by cbv)

theorem leaf_mem : .type leaf.toExpr ∈ session.items := by
  rw [session_eq]
  exact Session.mem_of_instance? (n := 14) (by cbv)

theorem unambiguous : session.known.Unambiguous := by
  unfold Universe.Unambiguous
  decide

theorem full_of_path (nodes : List Instance) (top : Instance)
    (h : session.known.Path leaf nodes top) : session.known.Full top := by
  have hall : ∀ d ∈ session.known.definitions, ∀ i ∈ session.known.supertypes d,
      session.known.Full i := by decide
  exact reachable.wellFormed.coherent.full_of_path hall (reachable.definition_mem leaf_mem)
    (by decide) h

/-- `Tag` is one hop above `Leaf`. -/
theorem path_tag : session.known.Path leaf [leaf, tag] tag :=
  .up ⟨tag, List.mem_cons_of_mem _ List.mem_cons_self, rfl⟩ (.here tag)

theorem not_nullable : ∀ n ∈ [leaf, tag], n.nullable = false := by decide

theorem limit_too_low :
    session.known.accepts 1 tag leaf = .error (.recursionLimit 1 (.assigningTo tag)) := rfl

/-- With one hop allowed the parent of `Middle` is too high, and `Tag` is not come to; with two, it
is. -/
theorem tag_within_limit :
    ¬ session.known.FirstWithin 2 tag leaf ∧ session.known.FirstWithin 3 tag leaf := by
  have hone : [leaf, tag].length - 1 ≤ 1 := le_rfl
  have htwo : [leaf, tag].length - 1 ≤ 2 := by decide
  obtain ⟨_, hlow, _⟩ := reachable.recognised_within_limit unambiguous tag_mem leaf_mem
    full_of_path path_tag rfl rfl (fun _ => not_nullable) hone
  obtain ⟨_, hhigh, _⟩ := reachable.recognised_within_limit unambiguous tag_mem leaf_mem
    full_of_path path_tag rfl rfl (fun _ => not_nullable) htwo
  refine ⟨fun hfirst => ?_, hhigh.mp rfl⟩
  have haccepts := hlow.mpr hfirst
  rw [limit_too_low] at haccepts
  cases haccepts

theorem not_always_recognised :
    ¬ ∀ S, Session.Reachable true S → S.known.Unambiguous → ∀ target source : Instance,
      .type target.toExpr ∈ S.items → .type source.toExpr ∈ S.items →
      (∀ nodes top, S.known.Path source nodes top → S.known.Full top) →
      ∀ nodes found limit, S.known.Path source nodes found → found.definition = target.definition →
        target.args.sameAs found.args = true →
        (target.nullable = false → ∀ n ∈ nodes, n.nullable = false) → nodes.length - 1 ≤ limit →
        S.known.accepts limit target source = .ok true := by
  intro h
  have haccepts := h session reachable unambiguous tag leaf tag_mem leaf_mem full_of_path
    [leaf, tag] tag 1 path_tag rfl rfl (fun _ => not_nullable) le_rfl
  rw [limit_too_low] at haccepts
  cases haccepts

end Detours

end NominalTypes
