import Dandelion.Registration
import Dandelion.ShardingPanics

/-!
# Join clauses of registered compositions

The registration resolves the set names of a join clause to positions of the
declared parameters, so a registered join order stays inside the inputs of its
function. It checks neither that a set is named once nor which strategies are
used, and exactly these two decide whether the sharding can panic.
-/

namespace Dandelion

open Outcome FunctionRegistry PositionWrites

theorem joinOrder_lt {functionName : String} {params names : List String} {order : List Nat}
    (h : joinOrder functionName params names = .ok order) : ∀ i ∈ order, i < params.length := by
  induction names generalizing order with
  | nil =>
    cases h
    exact fun i hi => absurd hi List.not_mem_nil
  | cons name names ih =>
    rw [joinOrder] at h
    cases hp : position params name with
    | none =>
      rw [hp] at h
      cases h
    | some index =>
      simp only [hp] at h
      obtain ⟨rest, hrest, h⟩ := (bind_eq_ok_iff _ _ _).mp h
      cases h
      exact List.forall_mem_cons.mpr ⟨position_lt hp, ih hrest⟩

theorem joinInfo_lt {functionName : String} {params : List String}
    {clause : Option Dparser.FunctionApplicationJoinStrategy} {info : List Nat × List JoinStrategy}
    (h : joinInfo functionName params clause = .ok info) : ∀ i ∈ info.1, i < params.length := by
  have hnone : ∀ i ∈ ([] : List Nat), i < params.length := fun i hi => absurd hi List.not_mem_nil
  cases clause with
  | none =>
    cases h
    exact hnone
  | some strategy =>
    rw [joinInfo] at h
    split at h
    · cases h
      exact hnone
    · obtain ⟨order, horder, h⟩ := (bind_eq_ok_iff _ _ _).mp h
      obtain ⟨strategies, -, h⟩ := (bind_eq_ok_iff _ _ _).mp h
      cases h
      exact joinOrder_lt horder

section Registered

variable {registry : FunctionRegistry}

theorem Translated.order_lt {decl : Dparser.FunctionDecl} {setNumbers : SetNumbers}
    {application : Dparser.FunctionApplication} {dep : FunctionDependencies}
    (h : Translated decl setNumbers application dep) :
    ∀ i ∈ dep.joinInfo.1, i < dep.inputSetIds.length := by
  obtain ⟨writes, -, hinputs⟩ := h.arguments
  rw [hinputs, length_writeAll, List.length_replicate]
  exact joinInfo_lt h.joinInfo

/-- The join order of a registered application stays inside its inputs. -/
theorem registered_order_lt {module : Dparser.Module}
    {comps : List (String × Composition × Metadata)}
    (h : compositionFromModule registry module = .ok comps) {c : String × Composition × Metadata}
    (hc : c ∈ comps) {dep : FunctionDependencies} (hdep : dep ∈ c.2.1.dependencies) :
    ∀ i ∈ dep.joinInfo.1, i < dep.inputSetIds.length := by
  obtain ⟨source, -, setNumbers, -, htranslated⟩ := exists_left_of_mem (compositionsFrom_ok h) hc
  obtain ⟨statement, -, application, decl, -, -, htranslated'⟩ := exists_left_of_mem htranslated hdep
  exact htranslated'.order_lt

/-- The sharding step of a registered application returns for every input exactly
when its join order names no set twice and it uses no inner join. -/
theorem registered_sharding_returns_iff {Ctx : Type} [Inhabited Ctx] {module : Dparser.Module}
    {comps : List (String × Composition × Metadata)}
    (h : compositionFromModule registry module = .ok comps) {c : String × Composition × Metadata}
    (hc : c ∈ comps) {dep : FunctionDependencies} (hdep : dep ∈ c.2.1.dependencies) :
    (∀ sets : ShardedInputs Ctx, sets.length = dep.inputSetIds.length →
      ∃ es, getSharding sets dep.joinInfo.1 dep.joinInfo.2 = .ok es) ↔
    dep.joinInfo.1.Nodup ∧ .inner ∉ dep.joinInfo.2.take (dep.inputSetIds.length - 1) :=
  getSharding_total_iff _ _ _ (registered_order_lt h hc hdep)

end Registered

/-- A registry that has the function `F` only. -/
def exampleRegistry : FunctionRegistry := ⟨fun name => name = "F", fun _ => true⟩

/-- `function F(X, Y) => (Z);` and
`composition C(a, b) => (c) { F(X = keyed a, Y = keyed b) => (c = Z) by X strategy Y; }` -/
def exampleModule (strategy : Dparser.JoinFilterStrategy) : Dparser.Module :=
  [.functionDecl ⟨"F", ["X", "Y"], ["Z"]⟩,
    .composition ⟨"C", ["a", "b"], ["c"],
      [.functionApplication ⟨"F", [⟨"X", "a", .keyed, false⟩, ⟨"Y", "b", .keyed, false⟩],
        [⟨"c", "Z"⟩], some ⟨["X", "Y"], [strategy]⟩⟩]⟩]

def exampleDependencies (strategy : JoinStrategy) : FunctionDependencies :=
  ⟨"F", [some ⟨0, .key, false⟩, some ⟨1, .key, false⟩], ([0, 1], [strategy]), [some 2]⟩

def exampleCompositions (strategy : JoinStrategy) : List (String × Composition × Metadata) :=
  [("C", ⟨[exampleDependencies strategy], .single 2 0⟩,
    ⟨["a", "b"], ["c"]⟩)]

theorem registered_left_join_returns :
    compositionFromModule exampleRegistry (exampleModule .left) = .ok (exampleCompositions .left) ∧
      ∃ es, getSharding [some (.key, CompositionSet.ofKeys [1, 2] (by decide)), none]
        (exampleDependencies .left).joinInfo.1 (exampleDependencies .left).joinInfo.2 = .ok es := by
  have hmodule : compositionFromModule exampleRegistry (exampleModule .left) =
      .ok (exampleCompositions .left) := by decide
  exact ⟨hmodule, (registered_sharding_returns_iff hmodule List.mem_cons_self
    List.mem_cons_self).mpr (by decide) _ rfl⟩

/-- The composition with an inner join is registered; with one item of the same key
in both sets its sharding step panics. -/
theorem registered_inner_join_panics :
    compositionFromModule exampleRegistry (exampleModule .inner) = .ok (exampleCompositions .inner) ∧
      (∃ c ∈ exampleCompositions .inner, exampleDependencies .inner ∈ c.2.1.dependencies) ∧
      ¬ ∃ es, getSharding [some (.key, CompositionSet.ofKeys [3] (by decide)),
          some (.key, CompositionSet.ofKeys [3] (by decide))]
        (exampleDependencies .inner).joinInfo.1 (exampleDependencies .inner).joinInfo.2 = .ok es := by
  refine ⟨by decide, ⟨_, List.mem_cons_self, List.mem_cons_self⟩, ?_⟩
  have hrun : getSharding [some (.key, CompositionSet.ofKeys [3] (by decide)),
      some (.key, CompositionSet.ofKeys [3] (by decide))]
      (exampleDependencies .inner).joinInfo.1 (exampleDependencies .inner).joinInfo.2 = crash := by
    decide
  rintro ⟨es, hes⟩
  rw [hrun] at hes
  cases hes

end Dandelion
