import Mathlib.Data.List.GetD
import Protobuf.Proofs.Schema.Search

/-! The numbers of components.

Components are numbered in the order in which they leave the stack. `components_exact` puts that
together with what the search does and what the components are: every node is visited once, and two
nodes have the same number if and only if each reaches the other. -/
namespace Protobuf.Graph
variable {g : Graph} {a b : Nat}

theorem inRange_iff : g.InRange ↔ ∀ targets ∈ g, ∀ b ∈ targets, b < g.length := by
  constructor
  · intro hrange targets htargets b hb
    obtain ⟨a, ha, rfl⟩ := List.mem_iff_getElem.mp htargets
    have hedge : g.Edge a b := by rwa [Edge, Graph.targets, List.getD_eq_getElem _ _ ha]
    exact hrange hedge
  · intro h a b hedge
    by_cases ha : a < g.length
    · rw [Edge, Graph.targets, List.getD_eq_getElem _ _ ha] at hedge
      exact h _ (List.getElem_mem ha) b hedge
    · rw [Edge, Graph.targets, List.getD_eq_default _ _ (Nat.le_of_not_lt ha)] at hedge
      cases hedge

theorem length_componentNumbers (g : Graph) : g.componentNumbers.length = g.length := by
  rw [componentNumbers, List.length_map, List.length_range]

theorem getElem?_componentNumbers (ha : a < g.length) :
    g.componentNumbers[a]? = some (g.components.reverse.findIdx (·.contains a)) := by
  rw [componentNumbers, List.getElem?_map, List.getElem?_range ha, Option.map_some]

/-- The number of a node leads to a component that has the node. -/
theorem exists_component (hrange : g.InRange) (ha : a < g.length) :
    ∃ k, g.componentNumbers[a]? = some k ∧
      ∃ c ∈ g.components, g.components.reverse[k]? = some c ∧ a ∈ c := by
  obtain ⟨c, hc, hmem⟩ := List.mem_flatten.mp ((search_complete hrange).2.2 a ha)
  have hlt : g.components.reverse.findIdx (·.contains a) < g.components.reverse.length :=
    List.findIdx_lt_length_of_exists ⟨c, List.mem_reverse.mpr hc, List.contains_iff_mem.mpr hmem⟩
  refine ⟨_, getElem?_componentNumbers ha,
    g.components.reverse[g.components.reverse.findIdx (·.contains a)], ?_,
    List.getElem?_eq_getElem hlt, List.contains_iff_mem.mp List.findIdx_getElem⟩
  exact List.mem_reverse.mp (List.getElem_mem hlt)

/-- Nodes that are in the same components are found at the same place. -/
theorem findIdx_contains_eq {components : List (List Nat)}
    (h : ∀ c ∈ components, a ∈ c ↔ b ∈ c) :
    components.findIdx (·.contains a) = components.findIdx (·.contains b) := by
  induction components with
  | nil => rfl
  | cons c rest ih =>
    obtain ⟨hc, hrest⟩ := List.forall_mem_cons.mp h
    have hsame : c.contains a = c.contains b := by
      rw [Bool.eq_iff_iff, List.contains_iff_mem, List.contains_iff_mem, hc]
    rw [List.findIdx_cons, List.findIdx_cons, hsame, ih hrest]

/-- Two nodes have the same number if and only if each reaches the other. -/
theorem componentNumbers_eq_iff (hrange : g.InRange) (ha : a < g.length) (hb : b < g.length) :
    g.componentNumbers[a]? = g.componentNumbers[b]? ↔ g.Reaches a b ∧ g.Reaches b a := by
  have hcomponents : ∀ c ∈ g.components, g.IsComponent c := (search_complete hrange).1.components
  constructor
  · intro h
    obtain ⟨k, hk, c, hc, hnumber, hac⟩ := exists_component hrange ha
    obtain ⟨l, hl, d, _, hnumber', hbd⟩ := exists_component hrange hb
    rw [hk, hl] at h
    cases h
    cases hnumber.symm.trans hnumber'
    exact ((hcomponents c hc).mem_iff hac b).mp hbd
  · intro hreach
    rw [getElem?_componentNumbers ha, getElem?_componentNumbers hb]
    refine congrArg some (findIdx_contains_eq fun c hc => ?_)
    have hc := hcomponents c (List.mem_reverse.mp hc)
    exact ⟨fun hac => (hc.mem_iff hac b).mpr hreach, fun hbc => (hc.mem_iff hbc a).mpr hreach.symm⟩

/-- Two nodes are found in one component if and only if each reaches the other. -/
theorem exists_mem_components_iff (hrange : g.InRange) (ha : a < g.length) :
    (∃ c ∈ g.components, a ∈ c ∧ b ∈ c) ↔ g.Reaches a b ∧ g.Reaches b a := by
  obtain ⟨hs, _, hall⟩ := search_complete hrange
  constructor
  · rintro ⟨c, hc, hac, hbc⟩
    exact ((hs.components c hc).mem_iff hac b).mp hbc
  · intro hreach
    obtain ⟨c, hc, hac⟩ := List.mem_flatten.mp (hall a ha)
    exact ⟨c, hc, hac, ((hs.components c hc).mem_iff hac b).mpr hreach⟩

/-- **The search finds the strongly connected components of every graph.** It visits each node once,
with self loops, parallel edges and nodes that nothing leads to among them, and leaves no node on
the stack. Every node gets a number. Two nodes get the same one, and are found together, if and only
if each reaches the other. -/
theorem components_exact (hrange : g.InRange) :
    g.search.visited.Perm (List.range g.length) ∧ g.search.stack = [] ∧
      g.components.flatten.Perm (List.range g.length) ∧ g.componentNumbers.length = g.length ∧
      ∀ a < g.length, ∀ b < g.length,
        (g.componentNumbers[a]? = g.componentNumbers[b]? ↔ g.Reaches a b ∧ g.Reaches b a) ∧
          ((∃ c ∈ g.components, a ∈ c ∧ b ∈ c) ↔
            g.componentNumbers[a]? = g.componentNumbers[b]?) := by
  refine ⟨visited_perm hrange, (search_complete hrange).2.1, flatten_components_perm hrange,
    length_componentNumbers g, fun a ha b hb => ?_⟩
  have hnumber := componentNumbers_eq_iff hrange ha hb
  exact ⟨hnumber, (exists_mem_components_iff hrange ha).trans hnumber.symm⟩

/-- Three nodes in a ring with an edge twice, a self loop that the ring leads to, and a node that
nothing leads to. -/
def tangle : Graph := [[1, 1], [2], [0, 3], [3], []]

/-- The ring is one component, and the other two nodes are each on their own. -/
theorem components_exact_tangle :
    tangle.InRange ∧ tangle.search.visited.Perm [0, 1, 2, 3, 4] ∧ tangle.search.stack = [] ∧
      (tangle.Reaches 1 0 ∧ tangle.Reaches 0 1) ∧ ¬ (tangle.Reaches 2 3 ∧ tangle.Reaches 3 2) ∧
      ¬ (tangle.Reaches 3 4 ∧ tangle.Reaches 4 3) := by
  have hrange : tangle.InRange := inRange_iff.mpr (by decide)
  obtain ⟨hvisited, hstack, _, _, hnumbers⟩ := components_exact hrange
  refine ⟨hrange, hvisited, hstack, ?_, ?_, ?_⟩
  · exact (hnumbers 1 (by decide) 0 (by decide)).1.mp (by decide)
  · exact (hnumbers 2 (by decide) 3 (by decide)).1.not.mp (by decide)
  · exact (hnumbers 3 (by decide) 4 (by decide)).1.not.mp (by decide)

end Protobuf.Graph
