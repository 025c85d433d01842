import NominalTypes.Fault

/-!
# Outcomes

How an operation that may fail came to its answer: sequencing peeled apart one step at a time, and
a short-circuiting search over a list read back from its result.  `HitsLimit` tells the one fault
that depends on the depth limit from all other answers; `Alike` compares two operations whose faults
may differ in what they mention, but not in kind.
-/

namespace NominalTypes

section Sequencing

variable {α β : Type} {x : Except Fault α} {f : α → Except Fault β}

theorem pure_eq_ok (a : α) : (pure a : Except Fault α) = .ok a := rfl

theorem bind_eq_ok_iff {b : β} : (x >>= f) = .ok b ↔ ∃ a, x = .ok a ∧ f a = .ok b := by
  cases x <;> simp [bind, Except.bind]

theorem bind_eq_error_iff {e : Fault} :
    (x >>= f) = .error e ↔ x = .error e ∨ ∃ a, x = .ok a ∧ f a = .error e := by
  cases x <;> simp [bind, Except.bind]

theorem bind_congr_ok {g : α → Except Fault β} (h : ∀ a, x = .ok a → f a = g a) :
    (x >>= f) = (x >>= g) := by
  cases x with
  | error e => rfl
  | ok a => exact h a rfl

theorem map_eq_ok_iff {g : α → β} {b : β} : x.map g = .ok b ↔ ∃ a, x = .ok a ∧ g a = b := by
  cases x <;> simp [Except.map]

theorem map_eq_error_iff {g : α → β} {e : Fault} : x.map g = .error e ↔ x = .error e := by
  cases x <;> simp [Except.map]

end Sequencing

section Comparison

variable {α β γ δ : Type}

/-- Both succeed, with related results, or both fail, with faults of one kind. -/
inductive Alike (R : α → β → Prop) : Except Fault α → Except Fault β → Prop where
  | ok {a : α} {b : β} : R a b → Alike R (.ok a) (.ok b)
  | error {e f : Fault} : e.kind = f.kind → Alike R (.error e) (.error f)

theorem Alike.bind {R : α → β → Prop} {Q : γ → δ → Prop} {x : Except Fault α} {y : Except Fault β}
    {f : α → Except Fault γ} {g : β → Except Fault δ} (h : Alike R x y)
    (hfg : ∀ a b, R a b → Alike Q (f a) (g b)) : Alike Q (x >>= f) (y >>= g) := by
  cases h with
  | ok hab => exact hfg _ _ hab
  | error hef => exact .error hef

theorem Alike.exists_ok {R : α → β → Prop} {x : Except Fault α} {y : Except Fault β} {a : α}
    (h : Alike R x y) (hx : x = .ok a) : ∃ b, y = .ok b ∧ R a b := by
  subst hx
  cases h with
  | ok hab => exact ⟨_, rfl, hab⟩

/-- One succeeds when the other does, and faults cannot be told apart by kind. -/
theorem Alike.of_ok {R : α → β → Prop} {x : Except Fault α} {y : Except Fault β}
    (hx : ∀ a, x = .ok a → ∃ b, y = .ok b ∧ R a b) (hy : ∀ b, y = .ok b → ∃ a, x = .ok a)
    (hkind : ∀ e f, x = .error e → y = .error f → e.kind = f.kind) : Alike R x y := by
  cases x with
  | ok a =>
    obtain ⟨b, rfl, hab⟩ := hx a rfl
    exact .ok hab
  | error e =>
    cases y with
    | ok b =>
      obtain ⟨a, ha⟩ := hy b rfl
      cases ha
    | error f => exact .error (hkind e f rfl rfl)

end Comparison

section Limit

variable {α β : Type} {x : Except Fault α} {f : α → Except Fault β}

def HitsLimit (r : Except Fault α) : Prop :=
  ∃ limit activity, r = .error (.recursionLimit limit activity)

@[simp] theorem not_hitsLimit_ok {a : α} : ¬ HitsLimit (.ok a : Except Fault α) := by
  rintro ⟨_, _, h⟩
  cases h

@[simp] theorem hitsLimit_recursionLimit {limit : Nat} {activity : Activity} :
    HitsLimit (.error (.recursionLimit limit activity) : Except Fault α) := ⟨limit, activity, rfl⟩

theorem hitsLimit_bind_iff :
    HitsLimit (x >>= f) ↔ HitsLimit x ∨ ∃ a, x = .ok a ∧ HitsLimit (f a) := by
  cases x with
  | error e => simp [HitsLimit, bind, Except.bind]
  | ok a => simp [bind, Except.bind]

theorem not_hitsLimit_of_unbound (h : ∀ e, x = .error e → ∃ p, e = .unboundParameter p) :
    ¬ HitsLimit x := by
  rintro ⟨limit, activity, hx⟩
  obtain ⟨p, hp⟩ := h _ hx
  cases hp

/-- A search with a bound, where answers other than the limit are kept under larger bounds: if
`size` is enough, no larger bound is needed. -/
theorem eq_min_of_stable {search : Nat → Except Fault α} {size : Nat}
    (hstable : ∀ n m, n ≤ m → ¬ HitsLimit (search n) → search m = search n)
    (hsize : ¬ HitsLimit (search size)) (bound : Nat) :
    search bound = search (min bound size) ∧ (size ≤ bound → ¬ HitsLimit (search bound)) := by
  rcases Nat.le_total size bound with hle | hle
  · have heq := hstable size bound hle hsize
    rw [Nat.min_eq_right hle, heq]
    exact ⟨rfl, fun _ => hsize⟩
  · rw [Nat.min_eq_left hle]
    refine ⟨rfl, fun hge => ?_⟩
    have heq : bound = size := by omega
    exact heq ▸ hsize

end Limit

section Search

variable {α : Type} {f g : α → Except Fault Bool} {l : List α}

theorem anyM_cons_eq (a : α) (rest : List α) :
    (a :: rest).anyM f = (f a >>= fun b => if b then .ok true else rest.anyM f) := by
  rw [List.anyM_cons]
  rfl

theorem anyM_congr (h : ∀ a ∈ l, f a = g a) : l.anyM f = l.anyM g := by
  induction l with
  | nil => rfl
  | cons a rest ih =>
    obtain ⟨ha, hrest⟩ := List.forall_mem_cons.mp h
    rw [anyM_cons_eq, anyM_cons_eq, ha, ih hrest]

theorem Alike.anyM (h : ∀ a ∈ l, Alike Eq (f a) (g a)) : Alike Eq (l.anyM f) (l.anyM g) := by
  induction l with
  | nil => exact .ok rfl
  | cons a rest ih =>
    obtain ⟨ha, hrest⟩ := List.forall_mem_cons.mp h
    rw [anyM_cons_eq, anyM_cons_eq]
    refine ha.bind fun b c hbc => ?_
    subst hbc
    cases b with
    | true => exact .ok rfl
    | false => exact ih hrest

/-- What a search finds comes after nothing but failures. -/
theorem exists_getElem?_of_anyM_eq_true (h : l.anyM f = .ok true) :
    ∃ (n : Nat) (a : α), l[n]? = some a ∧ f a = .ok true ∧
      ∀ m < n, ∀ b, l[m]? = some b → f b = .ok false := by
  induction l with
  | nil => cases h
  | cons a rest ih =>
    rw [anyM_cons_eq] at h
    obtain ⟨b, hb, h⟩ := bind_eq_ok_iff.mp h
    cases b with
    | true => exact ⟨0, a, rfl, hb, fun m hm => absurd hm (Nat.not_lt_zero m)⟩
    | false =>
      obtain ⟨n, c, hc, hfc, hbefore⟩ := ih h
      refine ⟨n + 1, c, hc, hfc, fun m hm x hx => ?_⟩
      cases m with
      | zero =>
        cases hx
        exact hb
      | succ m => exact hbefore m (Nat.lt_of_succ_lt_succ hm) x hx

theorem exists_of_anyM_eq_true (h : l.anyM f = .ok true) : ∃ a ∈ l, f a = .ok true := by
  obtain ⟨n, a, ha, hfa, _⟩ := exists_getElem?_of_anyM_eq_true h
  exact ⟨a, List.mem_of_getElem? ha, hfa⟩

/-- A search gets to what it looks for if all that comes before has an answer. -/
theorem anyM_eq_true_of_getElem? {n : Nat} {a : α} (ha : l[n]? = some a) (hfa : f a = .ok true)
    (h : ∀ m < n, ∀ b, l[m]? = some b → ∃ answer, f b = .ok answer) : l.anyM f = .ok true := by
  induction l generalizing n with
  | nil => cases ha
  | cons c rest ih =>
    rw [anyM_cons_eq]
    cases n with
    | zero =>
      cases ha
      rw [hfa]
      rfl
    | succ n =>
      obtain ⟨answer, hanswer⟩ := h 0 (Nat.succ_pos n) c rfl
      rw [hanswer]
      cases answer with
      | true => rfl
      | false => exact ih ha fun m hm b hb => h (m + 1) (Nat.succ_lt_succ hm) b hb

/-- A search that finds nothing has been everywhere. -/
theorem anyM_eq_false_iff : l.anyM f = .ok false ↔ ∀ a ∈ l, f a = .ok false := by
  induction l with
  | nil => simp [pure_eq_ok]
  | cons a rest ih =>
    rw [anyM_cons_eq, bind_eq_ok_iff, List.forall_mem_cons]
    constructor
    · rintro ⟨b, hb, h⟩
      cases b with
      | true => cases h
      | false => exact ⟨hb, ih.mp h⟩
    · rintro ⟨ha, h⟩
      exact ⟨false, ha, ih.mpr h⟩

theorem exists_of_anyM_eq_error {e : Fault} (h : l.anyM f = .error e) :
    ∃ a ∈ l, f a = .error e := by
  induction l with
  | nil => cases h
  | cons a rest ih =>
    rw [anyM_cons_eq, bind_eq_error_iff] at h
    rcases h with h | ⟨b, _, h⟩
    · exact ⟨a, List.mem_cons_self, h⟩
    · cases b with
      | true => cases h
      | false =>
        obtain ⟨c, hc, hfc⟩ := ih h
        exact ⟨c, List.mem_cons_of_mem a hc, hfc⟩

/-- If every answer of `f` apart from the limit is an answer of `g`, this holds of searches too. -/
theorem anyM_eq_of_not_hitsLimit (h : ¬ HitsLimit (l.anyM f))
    (hfg : ∀ a ∈ l, ¬ HitsLimit (f a) → g a = f a) : l.anyM g = l.anyM f := by
  induction l with
  | nil => rfl
  | cons a rest ih =>
    rw [anyM_cons_eq, hitsLimit_bind_iff, not_or] at h
    obtain ⟨ha, hrest⟩ := h
    rw [anyM_cons_eq, anyM_cons_eq, hfg a List.mem_cons_self ha]
    cases hfa : f a with
    | error e => rfl
    | ok b =>
      cases b with
      | true => rfl
      | false =>
        refine ih (fun hr => hrest ⟨false, hfa, hr⟩) ?_
        exact fun c hc => hfg c (List.mem_cons_of_mem a hc)

/-- If every answer of `f` becomes an answer of `g`, and no success becomes a failure, this holds of
searches too. -/
theorem exists_anyM_eq_ok {b : Bool} (h : l.anyM f = .ok b)
    (hfg : ∀ a ∈ l, ∀ b, f a = .ok b → ∃ c, g a = .ok c ∧ (b = true → c = true)) :
    ∃ c, l.anyM g = .ok c ∧ (b = true → c = true) := by
  induction l with
  | nil => exact ⟨false, rfl, by cases h; exact id⟩
  | cons a rest ih =>
    rw [anyM_cons_eq] at h
    obtain ⟨x, hx, h⟩ := bind_eq_ok_iff.mp h
    obtain ⟨y, hy, hxy⟩ := hfg a List.mem_cons_self x hx
    rw [anyM_cons_eq, hy]
    cases y with
    | true => exact ⟨true, rfl, fun _ => rfl⟩
    | false =>
      cases x with
      | true => exact absurd (hxy rfl) Bool.false_ne_true
      | false => exact ih h fun c hc => hfg c (List.mem_cons_of_mem a hc)

end Search

theorem foldlM_congr {α β : Type} {f g : β → α → Except Fault β} {l : List α}
    (h : ∀ a ∈ l, ∀ b, f b a = g b a) (b : β) : l.foldlM f b = l.foldlM g b := by
  induction l generalizing b with
  | nil => rfl
  | cons a rest ih =>
    obtain ⟨ha, hrest⟩ := List.forall_mem_cons.mp h
    rw [List.foldlM_cons, List.foldlM_cons, ha]
    exact bind_congr_ok fun c _ => ih hrest c

theorem exists_of_foldlM_eq_ok {α β : Type} {f : β → α → Except Fault β} {l : List α} {b c : β}
    (h : l.foldlM f b = .ok c) : ∀ a ∈ l, ∃ b' c', f b' a = .ok c' := by
  induction l generalizing b with
  | nil => exact fun a ha => absurd ha List.not_mem_nil
  | cons a rest ih =>
    rw [List.foldlM_cons] at h
    obtain ⟨b', hb', h⟩ := bind_eq_ok_iff.mp h
    exact List.forall_mem_cons.mpr ⟨⟨b, b', hb'⟩, ih h⟩

/-- Checks one after the other: all succeed, or the first that fails is the fault. -/
theorem forM_eq_ok_or_error {α : Type} (check : α → Except Fault Unit) (l : List α) :
    (l.forM check = .ok () ∧ ∀ a ∈ l, check a = .ok ()) ∨
      ∃ a ∈ l, ∃ e, check a = .error e ∧ l.forM check = .error e := by
  induction l with
  | nil => exact .inl ⟨rfl, fun a ha => absurd ha List.not_mem_nil⟩
  | cons a rest ih =>
    have hcons : (a :: rest).forM check = (check a >>= fun _ => rest.forM check) := rfl
    rw [hcons]
    cases ha : check a with
    | error e => exact .inr ⟨a, List.mem_cons_self, e, ha, rfl⟩
    | ok _ =>
      rcases ih with ⟨hok, hall⟩ | ⟨b, hb, e, he, herror⟩
      · exact .inl ⟨hok, List.forall_mem_cons.mpr ⟨ha, hall⟩⟩
      · exact .inr ⟨b, List.mem_cons_of_mem a hb, e, he, herror⟩

theorem forall_of_forM_eq_ok {α : Type} {check : α → Except Fault Unit} {l : List α}
    (h : l.forM check = .ok ()) : ∀ a ∈ l, check a = .ok () := by
  rcases forM_eq_ok_or_error check l with ⟨_, hall⟩ | ⟨_, _, _, _, herror⟩
  · exact hall
  · rw [h] at herror
    cases herror

end NominalTypes
