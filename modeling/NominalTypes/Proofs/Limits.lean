import NominalTypes.Proofs.Assignability
import NominalTypes.Proofs.Members

/-!
# The depth limit

The three searches count levels in different ways, but their limit means the same: up to that many
hops above the type.

* `ExactLimit`: an answer is kept under larger limits, and the limit is hit only where a way up has
  more hops than it allows;
* `Universe.find_exactLimit`, `Universe.allProperties_exactLimit`, `Universe.accepts_exactLimit`: so
  it is for each search;
* `Universe.depth_limit_exact`: and what stands as high as the limit allows is found.
-/

namespace NominalTypes

/-- For a search by limit, started at `s`, that goes up by `R`.  A way up with `n` types on it has
`n - 1` hops. -/
structure ExactLimit {α : Type} (R : Instance → Instance → Prop) (s : Instance)
    (search : Nat → Except Fault α) : Prop where
  stable : ∀ limit limit', limit ≤ limit' → ¬ HitsLimit (search limit) →
    search limit' = search limit
  exceeded : ∀ limit, HitsLimit (search limit) →
    ∃ nodes top, Route R s nodes top ∧ limit < nodes.length - 1

namespace Universe

theorem find_exactLimit (U : Universe) (name : String) (s : Instance) :
    ExactLimit U.ParentHop s fun limit => U.find limit name s where
  stable _ _ hle h := findFrom_stable hle h
  exceeded limit h := by
    obtain ⟨nodes, top, hroute, hlen⟩ := route_of_findFrom_hitsLimit h
    exact ⟨nodes, top, hroute, by omega⟩

theorem allProperties_exactLimit (U : Universe) (s : Instance) :
    ExactLimit U.ParentHop s fun limit => U.allProperties limit s where
  stable _ _ hle h := listFrom_stable hle h
  exceeded limit h := by
    obtain ⟨nodes, top, hroute, hlen⟩ := route_of_listFrom_hitsLimit h
    exact ⟨nodes, top, hroute, by omega⟩

theorem accepts_exactLimit (U : Universe) (target s : Instance) :
    ExactLimit U.Hop s fun limit => U.accepts limit target s where
  stable _ _ hle h := acceptsFrom_stable (Nat.succ_le_succ hle) h
  exceeded limit h := by
    obtain ⟨nodes, top, hpath, hlen⟩ := path_of_acceptsFrom_hitsLimit h
    exact ⟨nodes, top, hpath, by omega⟩

/-- `Nearest` says that the way up to the declaration can be gone, and that no nearer level declares
the name. -/
theorem depth_limit_exact (U : Universe) (target s : Instance) (name : String) :
    ExactLimit U.ParentHop s (fun limit => U.find limit name s) ∧
    ExactLimit U.ParentHop s (fun limit => U.allProperties limit s) ∧
    ExactLimit U.Hop s (fun limit => U.accepts limit target s) ∧
    ∀ depth top position declared type, U.Nearest name s depth top →
      U.ownProperty? top.definition name = some (position, declared) →
      declared.substitute top.args = .ok type →
      ∀ limit, depth ≤ limit → U.find limit name s = .ok (some ⟨depth, position, type⟩) := by
  refine ⟨U.find_exactLimit name s, U.allProperties_exactLimit s, U.accepts_exactLimit target s, ?_⟩
  intro depth top position declared type hnearest hown hsub limit hdepth
  exact find_of_nearest hnearest hdepth hown hsub

end Universe

namespace Layers

/-- `Base` stands two levels above `Top`: too far for limit 1, and within limit 2 and above, be it
that its `f` is looked up, that all properties are listed, or that `Base<T=Name>` is searched for. -/
theorem f_at_limit :
    (HitsLimit (known.find 1 "f" top) ∧ HitsLimit (known.allProperties 1 top) ∧
      HitsLimit (known.accepts 1 (base name) top)) ∧
    (∃ nodes above, Route known.ParentHop top nodes above ∧ 1 < nodes.length - 1) ∧
    (∃ nodes above, Route known.Hop top nodes above ∧ 1 < nodes.length - 1) ∧
    ∀ limit, 2 ≤ limit →
      known.find limit "f" top = .ok (some ⟨2, 0, .fn [("x", name)] name⟩) ∧
      known.allProperties limit top = .ok listed ∧
      known.accepts limit (base name) top = .ok true := by
  obtain ⟨_, hlisting, haccepting, hfound⟩ := known.depth_limit_exact (base name) top "f"
  have hfind : HitsLimit (known.find 1 "f" top) := ⟨1, .lookingUp "f", rfl⟩
  have hlist : HitsLimit (known.allProperties 1 top) := ⟨1, .listing top, rfl⟩
  have haccept : HitsLimit (known.accepts 1 (base name) top) := ⟨1, .assigningTo (base name), rfl⟩
  have hlisted : known.allProperties 2 top = .ok listed := rfl
  have haccepted : known.accepts 2 (base name) top = .ok true := rfl
  have htop : known.ParentHop top (middle name) := ⟨middle name, rfl, rfl⟩
  have hmiddle : known.ParentHop (middle name) (base name) := ⟨base (.var "U" none false), rfl, rfl⟩
  have hnearest : known.Nearest "f" top 2 (base name) :=
    .up (by decide) htop (.up (by decide) hmiddle (.here (by decide)))
  refine ⟨⟨hfind, hlist, haccept⟩, hlisting.exceeded 1 hlist, haccepting.exceeded 1 haccept, ?_⟩
  intro limit hlimit
  refine ⟨?_, ?_, ?_⟩
  · exact hfound 2 (base name) 0 (.fn [("x", .var "T" none false)] name) (.fn [("x", name)] name)
      hnearest rfl rfl limit hlimit
  · exact (hlisting.stable 2 limit hlimit (hlisted ▸ not_hitsLimit_ok)).trans hlisted
  · exact (haccepting.stable 2 limit hlimit (haccepted ▸ not_hitsLimit_ok)).trans haccepted

end Layers

end NominalTypes
