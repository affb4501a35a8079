import Mathlib.Data.List.Nodup
import Mathlib.Logic.Relation
import Protobuf.Schema.Component

/-! The depth-first search finds the strongly connected components.

While a node is being searched from, it is on the *path* to the node at hand. `Consistent` says what
holds of the stack then: every node reaches all that were put on it later, and every node reaches
one on the path, so that only a node on the path can be the lowest of its component. Nodes that left
the stack are complete components, and no edge leads out of them.

`Explored` says what following edges gives: the stack only grows, every node that was asked for is
discovered, and the rank returned is the least one of a node that is reached below. If that is no
less than the rank of the node itself, no edge leads from what was put on top of it to what is
below, so that it is all one component (`Consistent.complete`); if it is less, the node reaches a
node below that reaches one on the path (`Consistent.keep`). At the end the path is empty, and so
is the stack. -/
namespace Protobuf.Graph
variable {g : Graph}

/-! ### Reaching nodes -/

/-- There is an edge from one node to the other. -/
def Edge (g : Graph) (a b : Nat) : Prop := b ∈ g.targets a

/-- There is a way of any length along edges. -/
abbrev Reaches (g : Graph) : Nat → Nat → Prop := Relation.ReflTransGen g.Edge

/-- All edges lead to nodes of the graph. -/
def InRange (g : Graph) : Prop := ∀ ⦃a b : Nat⦄, g.Edge a b → b < g.length

/-- Nodes that reach each other, and all nodes that do. -/
structure IsComponent (g : Graph) (c : List Nat) : Prop where
  nonempty : c ≠ []
  mem_iff : ∀ {a : Nat}, a ∈ c → ∀ b, b ∈ c ↔ g.Reaches a b ∧ g.Reaches b a

/-- What no edge leads out of is not left by any way. -/
theorem mem_of_reaches {nodes : List Nat} (hclosed : ∀ v ∈ nodes, ∀ w, g.Edge v w → w ∈ nodes)
    {a b : Nat} (ha : a ∈ nodes) (h : g.Reaches a b) : b ∈ nodes := by
  induction h with
  | refl => exact ha
  | tail _ hedge ih => exact hclosed _ ih _ hedge

/-- A path that leads to a node leads on to the targets of its edges. -/
theorem reaches_target {path : List Nat} {node target : Nat} (hedge : g.Edge node target)
    (hpath : ∀ p ∈ path, g.Reaches p node) : ∀ p ∈ node :: path, g.Reaches p target := by
  intro p hp
  rcases List.mem_cons.mp hp with rfl | hp
  · exact .single hedge
  · exact (hpath p hp).tail hedge

/-! ### Ranks -/

namespace Search
variable {s s' : Search} {front : List Nat} {w : Nat}

/-- The nodes that were found so far. -/
def discovered (s : Search) : List Nat := s.stack ++ s.components.flatten

theorem not_mem_stack {node : Nat} (h : node ∉ s.discovered) : node ∉ s.stack :=
  fun hmem => h (List.mem_append_left _ hmem)

theorem isComplete_iff {node : Nat} :
    s.isComplete node = true ↔ node ∈ s.components.flatten := by
  simp [isComplete, List.mem_flatten]

theorem not_mem_discovered {node : Nat} (hcomplete : ¬ s.isComplete node = true)
    (hstack : node ∉ s.stack) : node ∉ s.discovered :=
  fun hmem => (List.mem_append.mp hmem).elim hstack fun hc => hcomplete (isComplete_iff.mpr hc)

theorem length_discovered_push (s : Search) (node : Nat) :
    (s.push node).discovered.length = s.discovered.length + 1 := rfl

theorem rank_lt (h : w ∈ s.stack) : s.rank w < s.stack.length := by
  have := List.length_pos_of_mem h
  unfold rank
  omega

/-- What is put on the stack later does not change a rank. -/
theorem rank_eq (hstack : s'.stack = front ++ s.stack) (hnodup : s'.stack.Nodup)
    (hw : w ∈ s.stack) : s'.rank w = s.rank w := by
  rw [hstack] at hnodup
  have hfront : w ∉ front := fun hmem => List.disjoint_of_nodup_append hnodup hmem hw
  have hindex := List.idxOf_lt_length_iff.mpr hw
  rw [rank, rank, hstack, List.idxOf_append_of_notMem hfront, List.length_append]
  omega

/-- Nodes of a rank below the height of a stack are on it. -/
theorem mem_of_rank_lt (hstack : s'.stack = front ++ s.stack) (hw : w ∈ s'.stack)
    (h : s'.rank w < s.stack.length) : w ∈ s.stack := by
  rw [hstack] at hw
  rcases List.mem_append.mp hw with hfront | hbelow
  · have hindex := List.idxOf_lt_length_iff.mpr hfront
    rw [rank, hstack, List.idxOf_append_of_mem hfront, List.length_append] at h
    omega
  · exact hbelow

/-- Everything above a height leaves the stack together. -/
theorem complete_eq (hstack : s'.stack = front ++ s.stack) :
    s'.complete s.stack.length =
      { s' with stack := s.stack, components := front :: s'.components } := by
  simp [complete, hstack]

/-- What leaves the stack stays discovered. -/
theorem discovered_complete (s : Search) (height : Nat) :
    (s.complete height).discovered.Perm s.discovered := by
  rw [complete, discovered, discovered, List.flatten_cons, ← List.append_assoc]
  conv => rhs; rw [← List.take_append_drop (s.stack.length - height) s.stack]
  exact List.perm_append_comm.append_right _

end Search

/-! ### What holds during a search -/

/-- The search is on the way along `path`. -/
structure Consistent (g : Graph) (path : List Nat) (s : Search) : Prop where
  nodup : s.discovered.Nodup
  /-- Each node that was found was searched from once. -/
  visited : s.visited.Perm s.discovered
  inRange : ∀ v ∈ s.discovered, v < g.length
  onStack : ∀ v ∈ path, v ∈ s.stack
  /-- A node reaches those above it on the stack. -/
  ordered : s.stack.Pairwise fun above below => g.Reaches below above
  toPath : ∀ v ∈ s.stack, ∃ p ∈ path, g.Reaches v p
  /-- Nodes that the search has left are fully explored. -/
  explored : ∀ v ∈ s.stack, v ∉ path → ∀ w, g.Edge v w → w ∈ s.discovered
  closed : ∀ v ∈ s.components.flatten, ∀ w, g.Edge v w → w ∈ s.components.flatten
  components : ∀ c ∈ s.components, g.IsComponent c

namespace Consistent
variable {path : List Nat} {s s' : Search} {node : Nat} {front : List Nat}

theorem stack_nodup (h : Consistent g path s) : s.stack.Nodup :=
  (List.nodup_append.mp h.nodup).1

theorem rank_push (h : Consistent g path s) (hnew : node ∉ s.discovered) {w : Nat}
    (hw : w ∈ s.stack) : (s.push node).rank w = s.rank w := by
  have hstack : (s.push node).stack = [node] ++ s.stack := rfl
  exact Search.rank_eq hstack (List.nodup_cons.mpr ⟨Search.not_mem_stack hnew, h.stack_nodup⟩) hw

theorem start : Consistent g [] .start where
  nodup := List.nodup_nil
  visited := .nil
  inRange _ hv := nomatch hv
  onStack _ hv := nomatch hv
  ordered := .nil
  toPath _ hv := nomatch hv
  explored _ hv := nomatch hv
  closed _ hv := nomatch hv
  components _ hc := nomatch hc

/-- Fewer nodes are discovered than there are, as long as one is not. -/
theorem length_lt (h : Consistent g path s) (hnode : node < g.length)
    (hnew : node ∉ s.discovered) : s.discovered.length < g.length := by
  have hnodup : (node :: s.discovered).Nodup := List.nodup_cons.mpr ⟨hnew, h.nodup⟩
  have hsubset : node :: s.discovered ⊆ List.range g.length := by
    intro v hv
    rcases List.mem_cons.mp hv with rfl | hv
    · exact List.mem_range.mpr hnode
    · exact List.mem_range.mpr (h.inRange v hv)
  have hlength := hnodup.length_le_of_subset hsubset
  rwa [List.length_cons, List.length_range] at hlength

/-- A node that the whole path reaches is put on the stack. -/
theorem push (h : Consistent g path s) (hnode : node < g.length) (hnew : node ∉ s.discovered)
    (hpath : ∀ p ∈ path, g.Reaches p node) : Consistent g (node :: path) (s.push node) where
  nodup := List.nodup_cons.mpr ⟨hnew, h.nodup⟩
  visited := (List.perm_append_singleton node s.visited).trans (h.visited.cons node)
  inRange v hv := by
    rcases List.mem_cons.mp hv with rfl | hv
    · exact hnode
    · exact h.inRange v hv
  onStack v hv := by
    rcases List.mem_cons.mp hv with rfl | hv
    · exact List.mem_cons_self ..
    · exact List.mem_cons_of_mem node (h.onStack v hv)
  ordered := by
    refine List.pairwise_cons.mpr ⟨fun v hv => ?_, h.ordered⟩
    obtain ⟨p, hp, hreach⟩ := h.toPath v hv
    exact hreach.trans (hpath p hp)
  toPath v hv := by
    rcases List.mem_cons.mp hv with rfl | hv
    · exact ⟨v, List.mem_cons_self .., .refl⟩
    · obtain ⟨p, hp, hreach⟩ := h.toPath v hv
      exact ⟨p, List.mem_cons_of_mem node hp, hreach⟩
  explored v hv hleft w hedge := by
    have hne : v ≠ node := fun he => hleft (he ▸ List.mem_cons_self ..)
    have hmem : v ∈ s.stack := (List.mem_cons.mp hv).resolve_left hne
    have hw := h.explored v hmem (fun hp => hleft (List.mem_cons_of_mem node hp)) w hedge
    exact List.mem_cons_of_mem node hw
  closed := h.closed
  components := h.components

section
variable (hs : Consistent g path s) (h : Consistent g (node :: path) s')
  (hstack : s'.stack = front ++ node :: s.stack)
  (hnode : ∀ w, g.Edge node w → w ∈ s'.discovered)
include hs h hstack hnode

/-- A fully explored node that reaches one below it stays on the stack. -/
theorem keep (hbelow : ∃ w ∈ s.stack, g.Reaches node w) : Consistent g path s' where
  nodup := h.nodup
  visited := h.visited
  inRange := h.inRange
  onStack v hv := h.onStack v (List.mem_cons_of_mem node hv)
  ordered := h.ordered
  toPath v hv := by
    obtain ⟨p, hp, hreach⟩ := h.toPath v hv
    rcases List.mem_cons.mp hp with rfl | hp
    · obtain ⟨w, hw, hdown⟩ := hbelow
      obtain ⟨q, hq, hup⟩ := hs.toPath w hw
      exact ⟨q, hq, (hreach.trans hdown).trans hup⟩
    · exact ⟨p, hp, hreach⟩
  explored v hv hleft w hedge := by
    by_cases hsame : v = node
    · exact hnode w (hsame ▸ hedge)
    · exact h.explored v hv (fun hp => (List.mem_cons.mp hp).elim hsame hleft) w hedge
  closed := h.closed
  components := h.components

/-- If no edge leads from a fully explored node and what is above it to what is below, then no edge
leads from there to anywhere but complete components. -/
theorem closed_above (hinside : ∀ v ∈ front ++ [node], ∀ w ∈ s.stack, ¬ g.Edge v w) :
    ∀ v ∈ front ++ [node] ++ s'.components.flatten, ∀ w, g.Edge v w →
      w ∈ front ++ [node] ++ s'.components.flatten := by
  intro v hv w hedge
  rcases List.mem_append.mp hv with htop | hcomplete
  · have hw : w ∈ s'.discovered := by
      by_cases hsame : v = node
      · exact hnode w (hsame ▸ hedge)
      · have hfront : v ∈ front := by simpa [hsame] using htop
        refine h.explored v (hstack ▸ List.mem_append_left _ hfront) ?_ w hedge
        intro hp
        have hbelow : v ∈ s.stack := hs.onStack v ((List.mem_cons.mp hp).resolve_left hsame)
        have hnodup := hstack ▸ h.stack_nodup
        exact List.disjoint_of_nodup_append hnodup hfront (List.mem_cons_of_mem node hbelow)
    have hbelow : w ∉ s.stack := fun hmem => hinside v htop w hmem hedge
    simpa [Search.discovered, hstack, hbelow] using hw
  · exact List.mem_append_right _ (h.closed v hcomplete w hedge)

/-- A fully explored node and what is above it then reach each other and nothing else that is not
complete. -/
theorem isComponent_above (hinside : ∀ v ∈ front ++ [node], ∀ w ∈ s.stack, ¬ g.Edge v w) :
    g.IsComponent (front ++ [node]) := by
  have hclosed := closed_above hs h hstack hnode hinside
  have htop : s'.stack = front ++ [node] ++ s.stack := by rw [hstack, List.append_cons]
  have hnodup := h.nodup
  rw [Search.discovered, htop] at hnodup
  have hdown : ∀ a ∈ front ++ [node], g.Reaches node a := by
    intro a ha
    rcases List.mem_append.mp ha with hfront | hsame
    · have hordered := hstack ▸ h.ordered
      exact (List.pairwise_append.mp hordered).2.2 a hfront node (List.mem_cons_self ..)
    · rw [List.mem_singleton.mp hsame]
  have hup : ∀ a ∈ front ++ [node], g.Reaches a node := by
    intro a ha
    obtain ⟨p, hp, hreach⟩ := h.toPath a (htop ▸ List.mem_append_left _ ha)
    rcases List.mem_cons.mp hp with rfl | hp
    · exact hreach
    · -- the path below is not left by any way from here
      have habove := mem_of_reaches hclosed (List.mem_append_left _ ha) hreach
      have hbelow := hs.onStack p hp
      grind
  refine ⟨by simp, fun {a} ha b => ⟨fun hb => ?_, fun hb => ?_⟩⟩
  · exact ⟨(hup a ha).trans (hdown b hb), (hup b hb).trans (hdown a ha)⟩
  · rcases List.mem_append.mp (mem_of_reaches hclosed (List.mem_append_left _ ha) hb.1) with
      habove | hcomplete
    · exact habove
    · have hback := mem_of_reaches h.closed hcomplete hb.2
      exact (List.disjoint_of_nodup_append hnodup (List.mem_append_left _ ha) hback).elim

/-- A fully explored node from which no edge leads below leaves the stack with all above it. -/
theorem complete (hinside : ∀ v ∈ front ++ [node], ∀ w ∈ s.stack, ¬ g.Edge v w) :
    Consistent g path (s'.complete s.stack.length) := by
  have hclosed := closed_above hs h hstack hnode hinside
  have htop : s'.stack = front ++ [node] ++ s.stack := by rw [hstack, List.append_cons]
  have hperm := s'.discovered_complete s.stack.length
  rw [Search.complete_eq htop] at hperm ⊢
  refine ⟨hperm.nodup_iff.mpr h.nodup, h.visited.trans hperm.symm,
    fun v hv => h.inRange v (hperm.mem_iff.mp hv), hs.onStack, hs.ordered, hs.toPath,
    fun v hv hleft w hedge => ?_, hclosed, fun c hc => ?_⟩
  · have hne : v ≠ node := by
      have hnodup := (List.nodup_append.mp (htop ▸ h.stack_nodup)).2.2
      exact fun hsame => hnodup node (by simp) v hv hsame.symm
    refine hperm.mem_iff.mpr (h.explored v (htop ▸ List.mem_append_right _ hv) ?_ w hedge)
    exact fun hp => (List.mem_cons.mp hp).elim hne hleft
  · rcases List.mem_cons.mp hc with rfl | hc
    · exact isComponent_above hs h hstack hnode hinside
    · exact h.components c hc

end

end Consistent

/-! ### Following edges -/

/-- What following edges to these nodes gives, if the least rank found before is `low`. -/
structure Explored (g : Graph) (path : List Nat) (s : Search) (low : Nat) (nodes : List Nat)
    (r : Nat × Search) : Prop where
  consistent : Consistent g path r.2
  above : ∃ front, r.2.stack = front ++ s.stack ∧
    ∀ v ∈ front, ∀ w ∈ s.stack, g.Edge v w → r.1 ≤ s.rank w
  grows : s.components <:+ r.2.components
  discovered : ∀ v ∈ nodes, v ∈ r.2.discovered
  low_le : r.1 ≤ low
  reached : r.1 < low → ∃ v ∈ nodes, ∃ w ∈ s.stack, s.rank w = r.1 ∧ g.Reaches v w
  least : ∀ v ∈ nodes, v ∈ s.stack → r.1 ≤ s.rank v

namespace Explored
variable {path nodes : List Nat} {s : Search} {low node : Nat} {r : Nat × Search}

theorem discovered_subset (h : Explored g path s low nodes r) :
    s.discovered ⊆ r.2.discovered := by
  obtain ⟨front, hstack, _⟩ := h.above
  obtain ⟨more, hcomponents⟩ := h.grows
  intro v hv
  rcases List.mem_append.mp hv with hv | hv
  · simp [Search.discovered, hstack, hv]
  · simp only [Search.discovered, ← hcomponents, List.flatten_append]
    exact List.mem_append_right _ (List.mem_append_right _ hv)

theorem nil (hs : Consistent g path s) : Explored g path s low [] (low, s) where
  consistent := hs
  above := ⟨[], rfl, fun _ hv => nomatch hv⟩
  grows := List.suffix_rfl
  discovered _ hv := nomatch hv
  low_le := Nat.le_refl low
  reached hlt := (Nat.lt_irrefl low hlt).elim
  least _ hv := nomatch hv

/-- There is nothing to find behind a complete component. -/
theorem ofComplete (hs : Consistent g path s) (hnode : node ∈ s.components.flatten) :
    Explored g path s s.stack.length [node] (s.stack.length, s) where
  consistent := hs
  above := ⟨[], rfl, fun _ hv => nomatch hv⟩
  grows := List.suffix_rfl
  discovered v hv := List.mem_singleton.mp hv ▸ List.mem_append_right _ hnode
  low_le := Nat.le_refl _
  reached hlt := (Nat.lt_irrefl _ hlt).elim
  least v hv hstack := by
    rw [List.mem_singleton.mp hv] at hstack
    exact (List.disjoint_of_nodup_append hs.nodup hstack hnode).elim

theorem ofStack (hs : Consistent g path s) (hnode : node ∈ s.stack) :
    Explored g path s s.stack.length [node] (s.rank node, s) where
  consistent := hs
  above := ⟨[], rfl, fun _ hv => nomatch hv⟩
  grows := List.suffix_rfl
  discovered _ hv := List.mem_append_left _ ((List.mem_singleton.mp hv).symm ▸ hnode)
  low_le := Nat.le_of_lt (Search.rank_lt hnode)
  reached _ := ⟨node, List.mem_singleton_self node, node, hnode, rfl, .refl⟩
  least _ hv _ := Nat.le_of_eq (List.mem_singleton.mp hv ▸ rfl)

/-- One edge is followed and then the others, with the lesser of the ranks. -/
theorem cons {found : Nat} {s' : Search} {rest : List Nat} (hlow : low ≤ s.stack.length)
    (hfirst : Explored g path s s.stack.length [node] (found, s'))
    (hrest : Explored g path s' (min low found) rest r) :
    Explored g path s low (node :: rest) r := by
  obtain ⟨front, hstack, hfront⟩ := hfirst.above
  obtain ⟨front', hstack', hfront'⟩ := hrest.above
  have hrank : ∀ w ∈ s.stack, s'.rank w = s.rank w :=
    fun w hw => Search.rank_eq hstack hfirst.consistent.stack_nodup hw
  have hbelow : ∀ w ∈ s.stack, w ∈ s'.stack := fun w hw => hstack ▸ List.mem_append_right _ hw
  have hmin : r.1 ≤ min low found := hrest.low_le
  have hgrows := hfirst.grows.trans hrest.grows
  refine ⟨hrest.consistent, ⟨front' ++ front, ?_, ?_⟩, hgrows, ?_, ?_, ?_, ?_⟩
  · rw [hstack', hstack, List.append_assoc]
  · intro v hv w hw hedge
    rcases List.mem_append.mp hv with hv | hv
    · exact hrank w hw ▸ hfront' v hv w (hbelow w hw) hedge
    · exact Nat.le_trans (Nat.le_trans hmin (Nat.min_le_right ..)) (hfront v hv w hw hedge)
  · intro v hv
    rcases List.mem_cons.mp hv with rfl | hv
    · exact hrest.discovered_subset (hfirst.discovered v (List.mem_singleton_self v))
    · exact hrest.discovered v hv
  · exact Nat.le_trans hmin (Nat.min_le_left ..)
  · intro hlt
    by_cases hnew : r.1 < min low found
    · obtain ⟨v, hv, w, hw, hwr, hreach⟩ := hrest.reached hnew
      have hlt' : s'.rank w < s.stack.length := hwr ▸ Nat.lt_of_lt_of_le hlt hlow
      have hdown : w ∈ s.stack := Search.mem_of_rank_lt hstack hw hlt'
      exact ⟨v, List.mem_cons_of_mem node hv, w, hdown, hrank w hdown ▸ hwr, hreach⟩
    · have hfound : found = r.1 := by omega
      obtain ⟨v, hv, w, hw, hwr, hreach⟩ := hfirst.reached (hfound ▸ Nat.lt_of_lt_of_le hlt hlow)
      have hfirst' : v ∈ node :: rest := List.mem_cons.mpr (.inl (List.mem_singleton.mp hv))
      exact ⟨v, hfirst', w, hw, hwr.trans hfound, hreach⟩
  · intro v hv hmem
    rcases List.mem_cons.mp hv with rfl | hv
    · exact Nat.le_trans (Nat.le_trans hmin (Nat.min_le_right ..))
        (hfirst.least v (List.mem_singleton_self v) hmem)
    · exact hrank v hmem ▸ hrest.least v hv (hbelow v hmem)

section
variable {s' : Search} (hs : Consistent g path s)
  (h : Explored g (node :: path) (s.push node) s.stack.length (g.targets node) (low, s'))
  (hnew : node ∉ s.discovered)
include hs h hnew

/-- When all edges of a node are followed, those that lead below it were all counted. -/
theorem exists_above : ∃ front, s'.stack = front ++ node :: s.stack ∧
    ∀ v ∈ front ++ [node], ∀ w ∈ s.stack, g.Edge v w → low ≤ s.rank w := by
  obtain ⟨front, hstack, hfront⟩ := h.above
  refine ⟨front, hstack, fun v hv w hw hedge => ?_⟩
  rw [← hs.rank_push hnew hw]
  have hw' : w ∈ (s.push node).stack := List.mem_cons_of_mem node hw
  rcases List.mem_append.mp hv with hv | hv
  · exact hfront v hv w hw' hedge
  · rw [List.mem_singleton.mp hv] at hedge
    exact h.least w hedge hw'

/-- A node that reaches nothing below it is the lowest of its component. -/
theorem finish (heq : low = s.stack.length) :
    Explored g path s s.stack.length [node] (low, s'.complete s.stack.length) := by
  obtain ⟨front, hstack, hedges⟩ := exists_above hs h hnew
  have hinside : ∀ v ∈ front ++ [node], ∀ w ∈ s.stack, ¬ g.Edge v w := by
    intro v hv w hw hedge
    have hle := hedges v hv w hw hedge
    have hlt := Search.rank_lt hw
    omega
  have hconsistent := hs.complete h.consistent hstack h.discovered hinside
  have htop : s'.stack = front ++ [node] ++ s.stack := by rw [hstack, List.append_cons]
  have hperm := s'.discovered_complete s.stack.length
  have hgrows : s.components <:+ s'.components := h.grows
  refine ⟨hconsistent, ⟨[], ?_, fun _ hv => nomatch hv⟩, ?_, fun v hv => ?_, h.low_le, ?_, ?_⟩
  · rw [Search.complete_eq htop]
    rfl
  · rw [Search.complete_eq htop]
    exact hgrows.trans (List.suffix_cons ..)
  · rw [List.mem_singleton.mp hv, hperm.mem_iff]
    exact List.mem_append_left _ (h.consistent.onStack node (List.mem_cons_self ..))
  · exact fun hlt => absurd heq (Nat.ne_of_lt hlt)
  · intro v hv hmem
    rw [List.mem_singleton.mp hv] at hmem
    exact absurd hmem (Search.not_mem_stack hnew)

/-- A node that reaches one below it stays on the stack. -/
theorem leave (hlt : low < s.stack.length) :
    Explored g path s s.stack.length [node] (low, s') := by
  obtain ⟨front, hstack, hedges⟩ := exists_above hs h hnew
  obtain ⟨v, hedge, w, hw, hwr, hreach⟩ := h.reached hlt
  have hpushed : (s.push node).stack = [node] ++ s.stack := rfl
  have hbelow : w ∈ s.stack := Search.mem_of_rank_lt hpushed hw (hwr ▸ hlt)
  have hdown : g.Reaches node w := .head hedge hreach
  have hconsistent := hs.keep h.consistent hstack h.discovered ⟨w, hbelow, hdown⟩
  refine ⟨hconsistent, ⟨front ++ [node], ?_, hedges⟩, h.grows, fun v hv => ?_, h.low_le,
    fun _ => ⟨node, List.mem_singleton_self node, w, hbelow, ?_, hdown⟩, ?_⟩
  · exact hstack.trans (List.append_cons ..)
  · rw [List.mem_singleton.mp hv]
    exact List.mem_append_left _ (h.consistent.onStack node (List.mem_cons_self ..))
  · exact (hs.rank_push hnew hbelow).symm.trans hwr
  · intro v hv hmem
    rw [List.mem_singleton.mp hv] at hmem
    exact absurd hmem (Search.not_mem_stack hnew)

end

end Explored

variable {path : List Nat} {s : Search} {low : Nat}

/-- The edges of a node are explored, if searching from its targets explores those. -/
theorem follow_explored {visit : Nat → Search → Nat × Search} {nodes : List Nat} {found : Nat}
    (hvisit : ∀ node ∈ nodes, ∀ s, Consistent g path s → found ≤ s.discovered.length →
      node ∉ s.discovered → Explored g path s s.stack.length [node] (visit node s))
    (hs : Consistent g path s) (hfound : found ≤ s.discovered.length)
    (hlow : low ≤ s.stack.length) : Explored g path s low nodes (follow visit low s nodes) := by
  induction nodes generalizing s low with
  | nil => exact .nil hs
  | cons node rest ih =>
    have hothers {s : Search} {low : Nat} := @ih s low fun v hv =>
      hvisit v (List.mem_cons_of_mem node hv)
    rw [follow]
    split
    · rename_i hcomplete
      have hmin : min low s.stack.length = low := Nat.min_eq_left hlow
      refine .cons hlow (.ofComplete hs (Search.isComplete_iff.mp hcomplete)) ?_
      exact hmin.symm ▸ hothers hs hfound hlow
    · rename_i hcomplete
      split
      · rename_i hstack
        exact .cons hlow (.ofStack hs hstack)
          (hothers hs hfound (Nat.le_trans (Nat.min_le_left ..) hlow))
      · rename_i hstack
        have hnew : node ∉ s.discovered := Search.not_mem_discovered hcomplete hstack
        have hfirst := hvisit node (List.mem_cons_self ..) s hs hfound hnew
        have hmore := hs.nodup.length_le_of_subset hfirst.discovered_subset
        obtain ⟨front, hfront, _⟩ := hfirst.above
        have hheight : s.stack.length ≤ (visit node s).2.stack.length := by
          rw [hfront, List.length_append]
          omega
        exact .cons hlow hfirst (hothers hfirst.consistent (Nat.le_trans hfound hmore)
          (Nat.le_trans (Nat.le_trans (Nat.min_le_left ..) hlow) hheight))

/-- A search from a node that is not yet discovered explores it. What was not discovered before
bounds how deep the calls nest. -/
theorem visit_explored (hrange : g.InRange) {depth node : Nat} (hs : Consistent g path s)
    (hnode : node < g.length) (hnew : node ∉ s.discovered)
    (hpath : ∀ p ∈ path, g.Reaches p node) (hdepth : g.length ≤ depth + s.discovered.length) :
    Explored g path s s.stack.length [node] (visit g depth node s) := by
  induction depth generalizing path s node with
  | zero =>
    have := hs.length_lt hnode hnew
    omega
  | succ depth ih =>
    have hpush := hs.push hnode hnew hpath
    have hfollow : Explored g (node :: path) (s.push node) s.stack.length (g.targets node)
        (follow (visit g depth) s.stack.length (s.push node) (g.targets node)) := by
      refine follow_explored ?_ hpush (Nat.le_refl _) (Nat.le_succ _)
      intro target hedge s' hs' hfound hnew'
      rw [Search.length_discovered_push] at hfound
      exact ih hs' (hrange hedge) hnew' (reaches_target hedge hpath) (by omega)
    rw [visit]
    generalize follow (visit g depth) s.stack.length (s.push node) (g.targets node) = r at hfollow
    obtain ⟨low, s'⟩ := r
    dsimp only
    split
    · rename_i heq
      exact .finish hs hfollow hnew heq
    · rename_i hne
      exact .leave hs hfollow hnew (Nat.lt_of_le_of_ne hfollow.low_le hne)

/-! ### The components -/

/-- The whole search discovers all nodes, and ends with an empty stack. -/
theorem search_complete (hrange : g.InRange) :
    Consistent g [] g.search ∧ g.search.stack = [] ∧ ∀ v < g.length, v ∈ g.components.flatten := by
  have hexplored : Explored g [] .start 0 (List.range g.length)
      (follow (visit g g.length) 0 .start (List.range g.length)) := by
    refine follow_explored ?_ .start (Nat.le_refl _) (Nat.le_refl _)
    intro node hnode s hs _ hnew
    exact visit_explored hrange hs (List.mem_range.mp hnode) hnew (fun _ hp => nomatch hp)
      (Nat.le_add_right ..)
  have hstack : g.search.stack = [] := by
    rw [List.eq_nil_iff_forall_not_mem]
    intro v hv
    obtain ⟨p, hp, _⟩ := hexplored.consistent.toPath v hv
    cases hp
  refine ⟨hexplored.consistent, hstack, fun v hv => ?_⟩
  have hmem : v ∈ g.search.discovered := hexplored.discovered v (List.mem_range.mpr hv)
  rwa [Search.discovered, hstack] at hmem

/-- The components have each node of the graph once. -/
theorem flatten_components_perm (hrange : g.InRange) :
    g.components.flatten.Perm (List.range g.length) := by
  obtain ⟨hs, hstack, hall⟩ := search_complete hrange
  have hdiscovered : g.search.discovered = g.components.flatten := by
    rw [Search.discovered, hstack, List.nil_append, components]
  have hnodup : g.components.flatten.Nodup := hdiscovered ▸ hs.nodup
  refine (List.perm_ext_iff_of_nodup hnodup List.nodup_range).mpr fun v => ?_
  rw [List.mem_range]
  exact ⟨fun hv => hs.inRange v (hdiscovered ▸ hv), hall v⟩

/-- The search visits each node of the graph once. -/
theorem visited_perm (hrange : g.InRange) : g.search.visited.Perm (List.range g.length) := by
  obtain ⟨hs, hstack, _⟩ := search_complete hrange
  have hvisited := hs.visited
  rw [Search.discovered, hstack, List.nil_append] at hvisited
  exact hvisited.trans (flatten_components_perm hrange)

end Protobuf.Graph
