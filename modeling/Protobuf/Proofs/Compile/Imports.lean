import Mathlib.Logic.Relation
import Protobuf.Compile.Session

/-! What loading imports does.

Loading follows import statements depth first, along a chain of names that leads from the file that
was asked for to the one at hand. `Consistent` says what holds of the loaded files at every moment,
also after a failure: the index knows each file by one name, under which the source has it, and all
imports of a file come before it. A file is added only when its imports are loaded, and none of the
names on the chain is loaded on the way, since an import that leads back into the chain fails.

`Outcome.Loads` collects what one step can do. It is proved once, for the import statements of a
file (`importEach_loads`) and then for chains of any length (`importFile_loads`); a failure comes
with the imports that lead to it (`Blames`). -/
namespace Protobuf

namespace FileSource

/-- The file with the first name has an import statement for the second. -/
def Imports (s : FileSource) (a b : String) : Prop :=
  ∃ f, s.load a = .ok f ∧ b ∈ f.imports

/-- There is a way of any length along import statements. -/
abbrev Reaches (s : FileSource) : String → String → Prop :=
  Relation.ReflTransGen s.Imports

end FileSource

/-! ### Loaded files -/

namespace Loaded
variable {s : FileSource} {l l' l'' : Loaded} {name : String} {f : SourceFile} {root : Bool}

theorem has_iff : l.has name = true ↔ ∃ place, l.indexOf? name = some place :=
  Option.isSome_iff_exists

theorem has_eq_false_iff : l.has name = false ↔ l.indexOf? name = none :=
  Option.isSome_eq_false_iff.trans Option.isNone_iff_eq_none

theorem indexOf?_insert (l : Loaded) (name other : String) (f : LoadedFile) :
    (l.insert name f).indexOf? other =
      if other = name then some l.files.length else l.indexOf? other := by
  simp only [insert, indexOf?, List.lookup_cons]
  by_cases h : other = name
  · simp [h]
  · rw [if_neg h, beq_false_of_ne h]

/-- What holds of the loaded files at every moment. -/
structure Consistent (s : FileSource) (l : Loaded) : Prop where
  served : ∀ {name : String} {place : Nat}, l.indexOf? name = some place →
    ∃ f, l.files[place]? = some f ∧ s.load name = .ok f.source
  distinct : ∀ {a b : String} {place : Nat}, l.indexOf? a = some place →
    l.indexOf? b = some place → a = b
  named : ∀ {place : Nat}, place < l.files.length → ∃ name, l.indexOf? name = some place
  imported : ∀ {place : Nat} {f : LoadedFile}, l.files[place]? = some f →
    ∀ name ∈ f.source.imports, ∃ earlier, earlier < place ∧ l.indexOf? name = some earlier

theorem Consistent.empty (s : FileSource) : Loaded.empty.Consistent s where
  served h := nomatch h
  distinct h := nomatch h
  named h := nomatch h
  imported h := nomatch h

theorem Consistent.lt_length (h : l.Consistent s) {place : Nat}
    (hplace : l.indexOf? name = some place) : place < l.files.length := by
  obtain ⟨f, hf, _⟩ := h.served hplace
  exact (List.getElem?_eq_some_iff.mp hf).1

/-- A file may be added once its imports are loaded. -/
theorem Consistent.insert (h : l.Consistent s) (hnew : l.indexOf? name = none)
    (hload : s.load name = .ok f) (himports : ∀ i ∈ f.imports, l.has i = true) :
    (l.insert name ⟨f, root⟩).Consistent s := by
  have hfiles : (l.insert name ⟨f, root⟩).files = l.files ++ [⟨f, root⟩] := rfl
  have hkept : ∀ {other place}, l.indexOf? other = some place →
      (l.insert name ⟨f, root⟩).indexOf? other = some place := by
    intro other place hother
    rw [indexOf?_insert, if_neg, hother]
    intro hsame
    rw [hsame, hnew] at hother
    cases hother
  refine ⟨?_, ?_, ?_, ?_⟩
  · intro other place hother
    rw [indexOf?_insert] at hother
    split at hother
    · rename_i hsame
      cases hother
      exact ⟨⟨f, root⟩, by simp [hfiles], hsame ▸ hload⟩
    · obtain ⟨g, hg, hserved⟩ := h.served hother
      exact ⟨g, by rw [hfiles, List.getElem?_append_left (h.lt_length hother), hg], hserved⟩
  · intro a b place ha hb
    rw [indexOf?_insert] at ha hb
    split at ha
    · split at hb
      · simp_all
      · cases ha
        exact absurd (h.lt_length hb) (Nat.lt_irrefl _)
    · split at hb
      · cases hb
        exact absurd (h.lt_length ha) (Nat.lt_irrefl _)
      · exact h.distinct ha hb
  · intro place hplace
    rw [hfiles, List.length_append, List.length_singleton, Nat.lt_succ_iff_lt_or_eq] at hplace
    rcases hplace with hplace | rfl
    · obtain ⟨other, hother⟩ := h.named hplace
      exact ⟨other, hkept hother⟩
    · exact ⟨name, by rw [indexOf?_insert, if_pos rfl]⟩
  · intro place g hg i hi
    by_cases hplace : place < l.files.length
    · rw [hfiles, List.getElem?_append_left hplace] at hg
      obtain ⟨earlier, hlt, hindex⟩ := h.imported hg i hi
      exact ⟨earlier, hlt, hkept hindex⟩
    · -- the new file: its imports are all at old places
      have hlast : g = ⟨f, root⟩ ∧ place = l.files.length := by
        rw [hfiles, List.getElem?_append_right (Nat.le_of_not_lt hplace)] at hg
        have hzero := List.mem_singleton.mp (List.mem_of_getElem? hg)
        have hlt := (List.getElem?_eq_some_iff.mp hg).1
        simp only [List.length_singleton] at hlt
        exact ⟨hzero, by omega⟩
      obtain ⟨rfl, rfl⟩ := hlast
      obtain ⟨earlier, hindex⟩ := has_iff.mp (himports i hi)
      exact ⟨earlier, h.lt_length hindex, hkept hindex⟩

theorem files_markRoot (l : Loaded) (marked place : Nat) :
    (l.markRoot marked).files[place]? =
      l.files[place]?.map fun f => if marked = place then { f with isRoot := true } else f := by
  rw [markRoot, List.getElem?_modify]
  cases l.files[place]? with
  | none => rfl
  | some f => by_cases h : marked = place <;> simp [h]

theorem Consistent.markRoot (h : l.Consistent s) (place : Nat) :
    (l.markRoot place).Consistent s := by
  refine ⟨?_, h.distinct, ?_, ?_⟩
  · intro name other hother
    obtain ⟨f, hf, hload⟩ := h.served hother
    refine ⟨if place = other then { f with isRoot := true } else f, ?_, ?_⟩
    · rw [files_markRoot, hf]
      rfl
    · split <;> exact hload
  · intro other hother
    exact h.named (by simpa [Loaded.markRoot] using hother)
  · intro other f hf name hname
    rw [files_markRoot] at hf
    obtain ⟨g, hg, rfl⟩ := Option.map_eq_some_iff.mp hf
    refine h.imported hg name ?_
    split at hname <;> exact hname

/-- Files are added at the end only, and marks and places stay. -/
structure Extends (l l' : Loaded) : Prop where
  sources : l.files.map (·.source) <+: l'.files.map (·.source)
  roots : ∀ {place : Nat} {f : LoadedFile}, l.files[place]? = some f → f.isRoot = true →
    ∃ f' : LoadedFile, l'.files[place]? = some f' ∧ f'.isRoot = true
  places : ∀ {name : String} {place : Nat}, l.indexOf? name = some place →
    l'.indexOf? name = some place

theorem Extends.refl (l : Loaded) : l.Extends l :=
  ⟨List.prefix_rfl, fun hf hroot => ⟨_, hf, hroot⟩, id⟩

theorem Extends.trans (h : l.Extends l') (h' : l'.Extends l'') : l.Extends l'' := by
  refine ⟨h.sources.trans h'.sources, ?_, fun hplace => h'.places (h.places hplace)⟩
  intro place f hf hroot
  obtain ⟨f', hf', hroot'⟩ := h.roots hf hroot
  exact h'.roots hf' hroot'

theorem Extends.has (h : l.Extends l') (hname : l.has name = true) : l'.has name = true := by
  obtain ⟨place, hplace⟩ := has_iff.mp hname
  exact has_iff.mpr ⟨place, h.places hplace⟩

theorem extends_insert (hnew : l.indexOf? name = none) : l.Extends (l.insert name ⟨f, root⟩) := by
  refine ⟨?_, ?_, ?_⟩
  · rw [insert, List.map_append]
    exact List.prefix_append _ _
  · intro place g hg hroot
    have hlt := (List.getElem?_eq_some_iff.mp hg).1
    exact ⟨g, by rw [insert, List.getElem?_append_left hlt, hg], hroot⟩
  · intro other place hother
    rw [indexOf?_insert, if_neg, hother]
    intro hsame
    rw [hsame, hnew] at hother
    cases hother

theorem extends_markRoot (l : Loaded) (marked : Nat) : l.Extends (l.markRoot marked) := by
  refine ⟨?_, ?_, id⟩
  · have hsources : (l.markRoot marked).files.map (·.source) = l.files.map (·.source) := by
      apply List.ext_getElem?
      intro place
      rw [List.getElem?_map, List.getElem?_map, files_markRoot]
      cases l.files[place]? with
      | none => rfl
      | some f => by_cases h : marked = place <;> simp [h]
    exact hsources ▸ List.prefix_rfl
  · intro place f hf hroot
    rw [files_markRoot, hf]
    refine ⟨_, rfl, ?_⟩
    split
    · rfl
    · exact hroot

end Loaded

/-! ### One step -/

namespace Loading

/-- Why loading an import fails behind `chain`, if at most `depth` more files are opened one inside
the other: it leads back into the chain, it cannot be read, or one of its own imports fails. -/
inductive Blames (s : FileSource) : (depth : Nat) → (chain : List String) → String →
    CompileError → Prop where
  | endless {chain : List String} {name : String} :
      Blames s 0 chain name (.endlessImport (chain ++ [name]))
  | circular {depth : Nat} {chain : List String} {name : String} : name ∈ chain →
      Blames s (depth + 1) chain name (.circularImport (chain ++ [name]))
  | unread {depth : Nat} {chain : List String} {name : String} {e : CompileError} :
      name ∉ chain → s.load name = .error e → Blames s (depth + 1) chain name e
  | inside {depth : Nat} {chain : List String} {name : String} {f : SourceFile} {i : Decl.Import}
      {e : CompileError} : name ∉ chain → s.load name = .ok f → i ∈ f.decl.imports →
      Blames s depth (chain ++ [name]) i.value e →
      Blames s (depth + 1) chain name (atImport f i e)

variable {s : FileSource} {chain : List String} {name : String} {l : Loaded}

/-- What a step does that is to load `names` behind `chain`, where a failure is one of `blames`. -/
structure Outcome.Loads (s : FileSource) (chain names : List String)
    (blames : CompileError → Prop) (l : Loaded) (o : Outcome) : Prop where
  consistent : l.Consistent s → o.loaded.Consistent s
  grown : l.Extends o.loaded
  /-- The names on the chain are not loaded on the way. -/
  absent : ∀ c ∈ chain, l.indexOf? c = none → o.loaded.indexOf? c = none
  reached : ∀ n, o.loaded.has n = true → l.has n = true ∨ ∃ name ∈ names, s.Reaches name n
  complete : o.error = none → ∀ name ∈ names, o.loaded.has name = true
  blamed : ∀ e, o.error = some e → blames e

namespace Outcome.Loads
variable {names : List String} {blames : CompileError → Prop}

/-- A step that changes nothing. -/
theorem unchanged {error : Option CompileError}
    (hdone : error = none → ∀ name ∈ names, l.has name = true)
    (hfailed : ∀ e, error = some e → blames e) : Loads s chain names blames l ⟨l, error⟩ where
  consistent := id
  grown := .refl l
  absent _ _ := id
  reached _ := .inl
  complete := hdone
  blamed := hfailed

end Outcome.Loads

/-- Import statements are followed as their files are. -/
theorem importEach_loads {load : String → Loaded → Outcome} {blames : String → CompileError → Prop}
    (hload : ∀ name l, (load name l).Loads s chain [name] (blames name) l) (f : SourceFile)
    (l : Loaded) (imports : List Decl.Import) :
    (importEach load f l imports).Loads s chain (imports.map (·.value))
      (fun e => ∃ i ∈ imports, ∃ cause, blames i.value cause ∧ e = atImport f i cause) l := by
  induction imports generalizing l with
  | nil => exact .unchanged (by simp) (by simp)
  | cons i rest ih =>
    have hfirst := hload i.value l
    rw [importEach]
    cases ho : load i.value l with
    | mk l' error =>
      rw [ho] at hfirst
      cases error with
      | some e =>
        refine ⟨hfirst.consistent, hfirst.grown, hfirst.absent, ?_, nofun, ?_⟩
        · intro n hn
          refine (hfirst.reached n hn).imp_right fun hreach => ?_
          obtain ⟨name, hname, hreach⟩ := hreach
          exact ⟨name, by simp [List.mem_singleton.mp hname], hreach⟩
        · intro e' he'
          cases he'
          exact ⟨i, List.mem_cons_self, e, hfirst.blamed e rfl, rfl⟩
      | none =>
        have hrest := ih l'
        refine ⟨fun h => hrest.consistent (hfirst.consistent h), hfirst.grown.trans hrest.grown,
          fun c hc h => hrest.absent c hc (hfirst.absent c hc h), ?_, ?_, ?_⟩
        · intro n hn
          rcases hrest.reached n hn with hn | ⟨name, hname, hreach⟩
          · refine (hfirst.reached n hn).imp_right fun hreach => ?_
            obtain ⟨name, hname, hreach⟩ := hreach
            exact ⟨name, by simp [List.mem_singleton.mp hname], hreach⟩
          · exact .inr ⟨name, List.mem_cons_of_mem _ hname, hreach⟩
        · intro hnone name hname
          rcases List.mem_cons.mp hname with rfl | hname
          · exact hrest.grown.has (hfirst.complete rfl _ (List.mem_singleton_self _))
          · exact hrest.complete hnone name hname
        · intro e he
          obtain ⟨j, hj, cause, hcause, hat⟩ := hrest.blamed e he
          exact ⟨j, List.mem_cons_of_mem _ hj, cause, hcause, hat⟩

/-- A file is opened, its imports are loaded, and then it is added itself. -/
theorem insert_loads {l' : Loaded} {f : SourceFile} {root : Bool}
    {blames blames' : CompileError → Prop} (hnew : l.indexOf? name = none) (hchain : name ∉ chain)
    (hload : s.load name = .ok f)
    (h : Outcome.Loads s (chain ++ [name]) f.imports blames l ⟨l', none⟩) :
    Outcome.Loads s chain [name] blames' l ⟨l'.insert name ⟨f, root⟩, none⟩ := by
  have hstill : l'.indexOf? name = none := h.absent name (by simp) hnew
  refine ⟨?_, h.grown.trans (Loaded.extends_insert hstill), ?_, ?_, ?_, nofun⟩
  · intro hl
    exact (h.consistent hl).insert hstill hload (h.complete rfl)
  · intro c hc hcabsent
    have hne : c ≠ name := fun hsame => hchain (hsame ▸ hc)
    rw [Loaded.indexOf?_insert, if_neg hne]
    exact h.absent c (List.mem_append_left _ hc) hcabsent
  · intro n hn
    obtain ⟨place, hplace⟩ := Loaded.has_iff.mp hn
    rw [Loaded.indexOf?_insert] at hplace
    split at hplace
    · rename_i hsame
      exact .inr ⟨name, List.mem_singleton_self _, hsame ▸ .refl⟩
    · refine (h.reached n (Loaded.has_iff.mpr ⟨place, hplace⟩)).imp_right fun hreach => ?_
      obtain ⟨i, hi, hreach⟩ := hreach
      exact ⟨name, List.mem_singleton_self _, .head ⟨f, hload, hi⟩ hreach⟩
  · intro _ n hn
    rw [List.mem_singleton.mp hn]
    exact Loaded.has_iff.mpr ⟨_, by rw [Loaded.indexOf?_insert, if_pos rfl]⟩

/-- What was opened under a name that fails inside keeps what its imports have loaded. -/
theorem Outcome.Loads.failed {l' : Loaded} {f : SourceFile} {e : CompileError}
    {blames blames' : CompileError → Prop} (hload : s.load name = .ok f)
    (h : Outcome.Loads s (chain ++ [name]) f.imports blames l ⟨l', some e⟩) (he : blames' e) :
    Outcome.Loads s chain [name] blames' l ⟨l', some e⟩ := by
  refine ⟨h.consistent, h.grown, fun c hc => h.absent c (List.mem_append_left _ hc), ?_, nofun, ?_⟩
  · intro n hn
    refine (h.reached n hn).imp_right fun hreach => ?_
    obtain ⟨i, hi, hreach⟩ := hreach
    exact ⟨name, List.mem_singleton_self _, .head ⟨f, hload, hi⟩ hreach⟩
  · intro e' he'
    cases he'
    exact he

/-- **One import**, followed to any depth. -/
theorem importFile_loads (s : FileSource) (depth : Nat) (chain : List String) (name : String)
    (l : Loaded) :
    (importFile s depth chain name l).Loads s chain [name] (Blames s depth chain name) l := by
  -- the chain grows where the depth shrinks
  induction depth generalizing chain name l with
  | zero =>
    refine .unchanged nofun fun e he => ?_
    cases he
    exact .endless
  | succ depth ih =>
    rw [importFile]
    split
    · rename_i hmem
      refine .unchanged nofun fun e he => ?_
      cases he
      exact .circular hmem
    · rename_i hchain
      split
      · rename_i hhas
        refine .unchanged (fun _ n hn => ?_) nofun
        rwa [List.mem_singleton.mp hn]
      · rename_i hnew
        have hnew := Loaded.has_eq_false_iff.mp (Bool.not_eq_true _ ▸ hnew)
        cases hload : s.load name with
        | error e =>
          refine .unchanged nofun fun e' he' => ?_
          cases he'
          exact .unread hchain hload
        | ok f =>
          have himports := importEach_loads (fun i l => ih (chain ++ [name]) i l) f l f.decl.imports
          dsimp only
          cases ho : importEach (importFile s depth (chain ++ [name])) f l f.decl.imports with
          | mk l' error =>
            rw [ho] at himports
            cases error with
            | none => exact insert_loads hnew hchain hload himports
            | some e =>
              obtain ⟨i, hi, cause, hcause, rfl⟩ := himports.blamed e rfl
              exact himports.failed hload (.inside hchain hload hi hcause)

/-! ### The file that is asked for -/

/-- Why loading the file at a path fails, if its name is not loaded yet. -/
inductive Refuses (s : FileSource) (path name : String) (known : Bool) : CompileError → Prop where
  | unread {e : CompileError} : s.load name = .error e →
      Refuses s path name known (if e.isNotFound then .fileNotIncluded path else e)
  | shadowed {f : SourceFile} {e : CompileError} : known = true → s.load name = .ok f →
      checkShadow f name path = some e → Refuses s path name known e
  | inside {f : SourceFile} {i : Decl.Import} {e : CompileError} : s.load name = .ok f →
      i ∈ f.decl.imports → Blames s (s.extent + 1) [name] i.value e →
      Refuses s path name known (atImport f i e)

theorem addNew_loads (path : String) (known : Bool) (hnew : l.indexOf? name = none) :
    (addNew s l path name known).Loads s [] [name] (Refuses s path name known) l := by
  rw [addNew]
  cases hload : s.load name with
  | error e =>
    refine .unchanged nofun fun e' he' => ?_
    cases he'
    exact .unread hload
  | ok f =>
    have himports := importEach_loads (fun i l => importFile_loads s (s.extent + 1) [name] i l) f l
      f.decl.imports
    dsimp only
    split
    · rename_i e hshadow
      refine .unchanged nofun fun e' he' => ?_
      cases he'
      cases known with
      | false => cases hshadow
      | true => exact .shadowed rfl hload hshadow
    · cases ho : importEach (importFile s (s.extent + 1) [name]) f l f.decl.imports with
      | mk l' error =>
        rw [ho] at himports
        cases error with
        | none => exact insert_loads hnew List.not_mem_nil hload himports
        | some e =>
          obtain ⟨i, hi, cause, hcause, rfl⟩ := himports.blamed e rfl
          exact himports.failed hload (.inside hload hi hcause)

end Loading

end Protobuf
