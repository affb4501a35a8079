import Mathlib.Data.List.Chain
import Protobuf.Proofs.Compile.LoadOrder

/-! Following imports is exact.

The search for cycles only looks at the chain of imports it is on, and passes over files that are
loaded already. That is enough, because loaded files are closed under imports and ordered
(`Consistent`): whatever they reach is loaded at an earlier place, so that no cycle goes through
them. A failure, on the other hand, comes with a chain of imports that leads to its cause
(`Blames.cause`). The chain has no name twice, so it is no longer than the source allows, and the
search always ends. -/
namespace Protobuf

/-! ### Loaded files have no cycle -/

namespace Loaded.Consistent
variable {s : FileSource} {l : Loaded} {a b : String} {place : Nat}

theorem exists_load (h : l.Consistent s) (ha : l.has a = true) : ∃ f, s.load a = .ok f := by
  obtain ⟨place, hplace⟩ := has_iff.mp ha
  obtain ⟨f, _, hload⟩ := h.served hplace
  exact ⟨f.source, hload⟩

/-- What a loaded file imports was loaded before it. -/
theorem earlier_of_imports (h : l.Consistent s) (ha : l.indexOf? a = some place)
    (hab : s.Imports a b) : ∃ earlier, earlier < place ∧ l.indexOf? b = some earlier := by
  obtain ⟨f, hload, hb⟩ := hab
  obtain ⟨g, hg, hserved⟩ := h.served ha
  rw [hload] at hserved
  cases hserved
  exact h.imported hg b hb

theorem earlier_of_transGen (h : l.Consistent s) (hab : Relation.TransGen s.Imports a b) :
    ∀ {place}, l.indexOf? a = some place →
      ∃ earlier, earlier < place ∧ l.indexOf? b = some earlier := by
  induction hab with
  | single hab => exact fun ha => h.earlier_of_imports ha hab
  | tail _ hbc ih =>
    intro place ha
    obtain ⟨middle, hmiddle, hb⟩ := ih ha
    obtain ⟨earlier, hearlier, hc⟩ := h.earlier_of_imports hb hbc
    exact ⟨earlier, hearlier.trans hmiddle, hc⟩

theorem has_of_reaches (h : l.Consistent s) (ha : l.has a = true) (hab : s.Reaches a b) :
    l.has b = true := by
  rcases Relation.reflTransGen_iff_eq_or_transGen.mp hab with rfl | hab
  · exact ha
  · obtain ⟨place, hplace⟩ := has_iff.mp ha
    obtain ⟨earlier, _, hb⟩ := h.earlier_of_transGen hab hplace
    exact has_iff.mpr ⟨earlier, hb⟩

theorem not_cyclic (h : l.Consistent s) (ha : l.has a = true) :
    ¬ Relation.TransGen s.Imports a a := by
  intro hcycle
  obtain ⟨place, hplace⟩ := has_iff.mp ha
  obtain ⟨earlier, hearlier, hsame⟩ := h.earlier_of_transGen hcycle hplace
  rw [hplace] at hsame
  cases hsame
  exact Nat.lt_irrefl _ hearlier

theorem has_iff_mem (h : l.Consistent s) (hs : s.ServesByName) :
    l.has a = true ↔ a ∈ l.files.map (·.source.name) := by
  obtain ⟨names, hlength, _, hnames⟩ := h.exists_names
  rw [h.names_eq hs hlength hnames, has_iff, List.mem_iff_getElem?]
  exact exists_congr fun place => hnames a place

end Loaded.Consistent

/-! ### Chains of imports -/

/-- All names of a chain but the first are imported, so a chain without a name twice is no longer
than the names that are imported. -/
theorem FileSource.Bounded.length_le {s : FileSource} (h : s.Bounded) {first : String}
    {chain : List String} (hnodup : chain.Nodup) (hlinked : (first :: chain).IsChain s.Imports) :
    chain.length ≤ s.extent := by
  obtain ⟨names, hlength, hnames⟩ := h
  have hsub : chain ⊆ names := by
    intro b hb
    obtain ⟨place, hplace, rfl⟩ := List.getElem_of_mem hb
    exact hnames (List.isChain_iff_getElem.mp hlinked place (by simpa using hplace))
  exact (hnodup.subperm hsub).length_le.trans hlength

namespace Loading
variable {s : FileSource} {depth : Nat} {chain : List String} {name : String} {e : CompileError}

theorem transGen_of_isChain (h : (chain ++ [name]).IsChain s.Imports) {c : String}
    (hc : c ∈ chain) : Relation.TransGen s.Imports c name := by
  induction chain generalizing c with
  | nil => cases hc
  | cons first rest ih =>
    have hrest := List.IsChain.of_cons h
    have hfirst : Relation.TransGen s.Imports first name := by
      cases rest with
      | nil => exact .single (List.isChain_cons_cons.mp h).1
      | cons second others =>
        exact .head (List.isChain_cons_cons.mp h).1 (ih hrest List.mem_cons_self)
    rcases List.mem_cons.mp hc with rfl | hc
    · exact hfirst
    · exact ih hrest hc

/-- The search is on its way along `chain` to `name`, and may still go `depth` files deeper. -/
structure OnWay (s : FileSource) (depth : Nat) (chain : List String) (name : String) : Prop where
  nodup : chain.Nodup
  linked : (chain ++ [name]).IsChain s.Imports
  ne_nil : chain ≠ []
  room : s.extent + 1 < chain.length + depth

theorem OnWay.inside (h : OnWay s (depth + 1) chain name) (hnew : name ∉ chain) {next : String}
    (hnext : s.Imports name next) : OnWay s depth (chain ++ [name]) next where
  nodup := List.nodup_append.mpr
    ⟨h.nodup, List.nodup_singleton _, fun a ha b hb hab =>
      hnew (List.mem_singleton.mp hb ▸ hab ▸ ha)⟩
  linked := by
    rw [List.append_assoc]
    exact List.isChain_split.mpr ⟨h.linked, List.isChain_pair.mpr hnext⟩
  ne_nil := List.append_ne_nil_of_right_ne_nil chain (List.cons_ne_nil name [])
  room := by
    have := h.room
    simp only [List.length_append, List.length_singleton]
    omega

theorem OnWay.depth_ne_zero (h : OnWay s depth chain name) (hs : s.Bounded) : depth ≠ 0 := by
  intro hzero
  have hlinked := h.linked.left_of_append
  have hroom := h.room
  cases chain with
  | nil => exact h.ne_nil rfl
  | cons first rest =>
    have hlength := hs.length_le (List.nodup_cons.mp h.nodup).2 hlinked
    rw [List.length_cons] at hroom
    omega

theorem atImport_eq_circular {f : SourceFile} {i : Decl.Import} {c : List String}
    (h : atImport f i e = .circularImport c) : e = .circularImport c := by
  unfold atImport at h
  split at h
  · cases h
  · exact h

theorem atImport_eq_endless {f : SourceFile} {i : Decl.Import} {c : List String}
    (h : atImport f i e = .endlessImport c) : e = .endlessImport c := by
  unfold atImport at h
  split at h
  · cases h
  · exact h

namespace Blames

/-- A reported cycle goes on from the chain, and its last name is in it before. -/
theorem circular_chain (hs : s.Plain) (h : Blames s depth chain name e)
    (hlinked : (chain ++ [name]).IsChain s.Imports) {c : List String}
    (he : e = .circularImport c) :
    chain ++ [name] <+: c ∧ c.IsChain s.Imports ∧
      ∃ front last, c = front ++ [last] ∧ last ∈ front := by
  induction h with
  | endless => cases he
  | circular hmem =>
    cases he
    exact ⟨List.prefix_rfl, hlinked, _, _, rfl, hmem⟩
  | unread _ hload => exact absurd he (hs hload c).1
  | @inside _ chain name f i _ _ hload hi _ ih =>
    have hnext : (chain ++ [name] ++ [i.value]).IsChain s.Imports := by
      rw [List.append_assoc]
      exact List.isChain_split.mpr
        ⟨hlinked, List.isChain_pair.mpr ⟨f, hload, List.mem_map_of_mem hi⟩⟩
    obtain ⟨hpre, hc, hlast⟩ := ih hnext (atImport_eq_circular he)
    exact ⟨(List.prefix_append _ _).trans hpre, hc, hlast⟩

/-- There is always room for one more file. -/
theorem not_endless (hs : s.Plain) (hbound : s.Bounded) (h : Blames s depth chain name e)
    (hway : OnWay s depth chain name) (c : List String) : e ≠ .endlessImport c := by
  induction h with
  | endless => exact absurd rfl (hway.depth_ne_zero hbound)
  | circular => nofun
  | unread _ hload => exact (hs hload c).2
  | inside hnew hload hi _ ih =>
    intro he
    exact ih (hway.inside hnew ⟨_, hload, List.mem_map_of_mem hi⟩) (atImport_eq_endless he)

/-- A failure has a cause among the files that are reached: one that cannot be read, or one that
imports itself in the end. -/
theorem cause (hbound : s.Bounded) (h : Blames s depth chain name e)
    (hway : OnWay s depth chain name) :
    ∃ n, s.Reaches name n ∧ ((∃ e', s.load n = .error e') ∨ Relation.TransGen s.Imports n n) := by
  induction h with
  | endless => exact absurd rfl (hway.depth_ne_zero hbound)
  | circular hmem => exact ⟨_, .refl, .inr (transGen_of_isChain hway.linked hmem)⟩
  | unread _ hload => exact ⟨_, .refl, .inl ⟨_, hload⟩⟩
  | inside hnew hload hi _ ih =>
    have hnext : s.Imports _ _ := ⟨_, hload, List.mem_map_of_mem hi⟩
    obtain ⟨n, hreach, hcause⟩ := ih (hway.inside hnew hnext)
    exact ⟨n, .head hnext hreach, hcause⟩

end Blames

/-! ### The file that is asked for -/

theorem onWay_root {f : SourceFile} {i : Decl.Import} (hload : s.load name = .ok f)
    (hi : i ∈ f.decl.imports) : OnWay s (s.extent + 1) [name] i.value where
  nodup := List.nodup_singleton _
  linked := List.isChain_pair.mpr ⟨f, hload, List.mem_map_of_mem hi⟩
  ne_nil := List.cons_ne_nil name []
  room := by
    rw [List.length_singleton]
    omega

theorem checkShadow_eq_some {f : SourceFile} {path : String}
    (h : checkShadow f name path = some e) : ∃ actual, e = .fileShadowed name path actual := by
  unfold checkShadow at h
  grind

namespace Refuses
variable {path : String} {known : Bool}

theorem circular_chain (hs : s.Plain) {c : List String}
    (h : Refuses s path name false (.circularImport c)) :
    c.head? = some name ∧ c.IsChain s.Imports ∧
      ∃ front last, c = front ++ [last] ∧ last ∈ front := by
  generalize he : CompileError.circularImport c = e at h
  cases h with
  | unread hload =>
    split at he
    · cases he
    · exact absurd he.symm (hs hload c).1
  | shadowed hknown => cases hknown
  | inside hload hi hblames =>
    obtain ⟨hpre, hc⟩ := hblames.circular_chain hs (onWay_root hload hi).linked
      (atImport_eq_circular he.symm)
    obtain ⟨others, rfl⟩ := hpre
    exact ⟨rfl, hc⟩

theorem not_endless (hs : s.Plain) (hbound : s.Bounded)
    (h : Refuses s path name known e) (c : List String) : e ≠ .endlessImport c := by
  cases h with
  | unread hload =>
    intro he
    split at he
    · cases he
    · exact (hs hload c).2 he
  | shadowed _ _ hshadow =>
    obtain ⟨actual, rfl⟩ := checkShadow_eq_some hshadow
    nofun
  | inside hload hi hblames =>
    intro he
    exact hblames.not_endless hs hbound (onWay_root hload hi) c (atImport_eq_endless he)

theorem cause (hbound : s.Bounded) (h : Refuses s path name false e) :
    ∃ n, s.Reaches name n ∧ ((∃ e', s.load n = .error e') ∨ Relation.TransGen s.Imports n n) := by
  cases h with
  | unread hload => exact ⟨name, .refl, .inl ⟨_, hload⟩⟩
  | shadowed hknown => cases hknown
  | inside hload hi hblames =>
    obtain ⟨n, hreach, hcause⟩ := hblames.cause hbound (onWay_root hload hi)
    exact ⟨n, .head ⟨_, hload, List.mem_map_of_mem hi⟩ hreach, hcause⟩

end Refuses

section AddNew
variable {path : String} {l : Loaded}

/-- If loading succeeds, what is loaded afterwards has no cycle; if it fails, there is a cause. -/
theorem addNew_succeeds_iff (hbound : s.Bounded) (hl : l.Consistent s)
    (hnew : l.indexOf? name = none) :
    (addNew s l path name false).error = none ↔ ∀ n, s.Reaches name n →
      (∃ f, s.load n = .ok f) ∧ ¬ Relation.TransGen s.Imports n n := by
  have hloads := addNew_loads (s := s) path false hnew
  have hafter := hloads.consistent hl
  constructor
  · intro herror n hreach
    have hname := hloads.complete herror name (List.mem_singleton_self name)
    have hn := hafter.has_of_reaches hname hreach
    exact ⟨hafter.exists_load hn, hafter.not_cyclic hn⟩
  · intro hgood
    cases herror : (addNew s l path name false).error with
    | none => rfl
    | some e =>
      obtain ⟨n, hreach, hcause⟩ := (hloads.blamed e herror).cause hbound
      obtain ⟨⟨f, hf⟩, hacyclic⟩ := hgood n hreach
      rcases hcause with ⟨e', he'⟩ | hcycle
      · rw [hf] at he'
        cases he'
      · exact absurd hcycle hacyclic

theorem addNew_has_iff (hl : l.Consistent s) (hnew : l.indexOf? name = none)
    (herror : (addNew s l path name false).error = none) (n : String) :
    (addNew s l path name false).loaded.has n = true ↔ l.has n = true ∨ s.Reaches name n := by
  have hloads := addNew_loads (s := s) path false hnew
  constructor
  · intro hn
    refine (hloads.reached n hn).imp_right fun hreach => ?_
    obtain ⟨m, hm, hreach⟩ := hreach
    rwa [List.mem_singleton.mp hm] at hreach
  · intro hn
    rcases hn with hn | hreach
    · exact hloads.grown.has hn
    · have hname := hloads.complete herror name (List.mem_singleton_self name)
      exact (hloads.consistent hl).has_of_reaches hname hreach

end AddNew

/-- A call never runs out of depth. -/
theorem addFile_ne_endless (hs : s.Plain) (hbound : s.Bounded) (l : Loaded) (path : String)
    (c : List String) : (addFile s l path).error ≠ some (.endlessImport c) := by
  intro h
  rw [addFile] at h
  split at h
  · cases h
  · rename_i name known _
    cases hplace : l.indexOf? name with
    | none =>
      rw [hplace] at h
      exact ((addNew_loads (s := s) path known hplace).blamed _ h).not_endless hs hbound c rfl
    | some place =>
      rw [hplace] at h
      dsimp only at h
      split at h
      · cases h
      · split at h
        · rename_i e hshadow
          cases h
          split at hshadow
          · obtain ⟨_, he⟩ := checkShadow_eq_some hshadow
            cases he
          · cases hshadow
        · cases h

end Loading

/-! ### Calls -/

namespace Session

/-- On disk, as in memory, every call comes to an end by itself, whatever files import each other
and whatever names lead to them. -/
theorem addFile_ne_endless_onDisk (disk : Disk) (includes : List String) (settings : Settings)
    (paths : List String) (path : String) (chain : List String) :
    (((start (.includePath disk includes) settings).afterCalls paths).addFile path).2 ≠
      some (.endlessImport chain) := by
  rw [addFile, source_afterCalls]
  exact Loading.addFile_ne_endless (FileSource.includePath_plain disk includes)
    (FileSource.includePath_bounded disk includes) _ path chain

/-- **Following imports is exact.** Let files be held in memory under their names, and let a session
with any calls behind it be asked for a path with the name `r`, which is not loaded. The call does
not run out of depth. It succeeds if and only if every file that `r` reaches along import statements
can be read and none of them reaches itself, and then the names that `r` reaches are loaded and no
others are added. If it reports a cycle, that is a chain of import statements from `r` on whose last
name is in it before. -/
theorem addFile_exact (held : List (String × FileSource.Held)) (settings : Settings)
    (paths : List String) {path r : String}
    (hpath : Path.nameOf? (Path.components path) = some r) :
    let source := FileSource.memory held
    let s := (start source settings).afterCalls paths
    r ∉ s.files.map (·.source.name) →
    ((s.addFile path).2 = none ↔ ∀ n, source.Reaches r n →
      (∃ f, source.load n = .ok f) ∧ ¬ Relation.TransGen source.Imports n n) ∧
    ((s.addFile path).2 = none → ∀ n, n ∈ (s.addFile path).1.files.map (·.source.name) ↔
      n ∈ s.files.map (·.source.name) ∨ source.Reaches r n) ∧
    (∀ chain, (s.addFile path).2 = some (.circularImport chain) →
      chain.head? = some r ∧ chain.IsChain source.Imports ∧
        ∃ front last, chain = front ++ [last] ∧ last ∈ front) ∧
    ∀ chain, (s.addFile path).2 ≠ some (.endlessImport chain) := by
  intro source s hnew
  have hs : source.ServesByName := FileSource.memory_servesByName held
  have hplain : source.Plain := FileSource.memory_plain held
  have hbound : source.Bounded := FileSource.memory_bounded held
  have hsource : s.source = source := source_afterCalls _ paths
  have hconsistent : s.loaded.Consistent source :=
    consistent_afterCalls (s := start source settings) (.empty source) paths
  have hindex : s.loaded.indexOf? r = none := by
    rw [← Loaded.has_eq_false_iff, ← Bool.not_eq_true, hconsistent.has_iff_mem hs]
    exact hnew
  have hcall : Loading.addFile source s.loaded path =
      Loading.addNew source s.loaded path r false := by
    simp only [Loading.addFile, Loading.nameFor, source, FileSource.memory, hpath, Option.map_some,
      hindex]
  have hloads := Loading.addNew_loads (s := source) path false hindex
  simp only [addFile, hsource, hcall, files, ← hconsistent.has_iff_mem hs,
    ← (hloads.consistent hconsistent).has_iff_mem hs]
  refine ⟨Loading.addNew_succeeds_iff hbound hconsistent hindex,
    fun herror n => Loading.addNew_has_iff hconsistent hindex herror n, fun chain herror => ?_,
    fun chain herror => ?_⟩
  · exact (hloads.blamed _ herror).circular_chain hplain
  · exact (hloads.blamed _ herror).not_endless hplain hbound chain rfl

/-- Files of which the second and third import each other, and one apart from them. -/
def knot : List (String × FileSource.Held) :=
  [("a.proto", .text "import \"b.proto\";"), ("b.proto", .text "import weak \"c.proto\";"),
    ("c.proto", .text "import public \"b.proto\";"), ("d.proto", .text "")]

/-- The first file imports itself nowhere, but it reaches two files that do. -/
theorem addFile_exact_knot :
    let source := FileSource.memory knot
    let s := (start source {}).afterCalls ["d.proto"]
    Path.nameOf? (Path.components "./a.proto") = some "a.proto" ∧
      s.files.map (·.source.name) = ["d.proto"] ∧
      (∃ chain, (s.addFile "./a.proto").2 = some (.circularImport chain) ∧
        chain.head? = some "a.proto" ∧ chain.IsChain source.Imports ∧
        ∃ front last, chain = front ++ [last] ∧ last ∈ front) ∧
      ¬ ∀ n, source.Reaches "a.proto" n →
        (∃ f, source.load n = .ok f) ∧ ¬ Relation.TransGen source.Imports n n := by
  intro source s
  have hname : Path.nameOf? (Path.components "./a.proto") = some "a.proto" := by decide +kernel
  have hfiles : s.files.map (·.source.name) = ["d.proto"] := by decide +kernel
  have hcircular : (s.addFile "./a.proto").2.any (·.isCircular) = true := by decide +kernel
  obtain ⟨hiff, _, hchain, _⟩ := addFile_exact knot {} ["d.proto"] hname
    (show "a.proto" ∉ s.files.map (·.source.name) by
      rw [hfiles]
      decide)
  cases herror : (s.addFile "./a.proto").2 with
  | none => simp [herror] at hcircular
  | some e =>
    have hfailed := mt hiff.mpr (by simp [s, source, herror])
    cases e with
    | circularImport chain => exact ⟨hname, hfiles, ⟨chain, rfl, hchain chain herror⟩, hfailed⟩
    | _ => simp [herror, CompileError.isCircular] at hcircular

end Session

end Protobuf
