import Protobuf.Proofs.Schema.Duplicates

/-! Files with a further one behind them.

The further file keeps the numbers of what was there, since definitions are numbered in the order of
the files. Its names come last, so that a clash with it is recorded as its own. Files that have all
their imports before them do not see it. And fields that hold messages of the files in front are
boxed as before. -/
namespace Protobuf

/-! ### The outline -/

namespace Outline

theorem append_assoc (a b c : Outline) : a ++ b ++ c = a ++ (b ++ c) := by
  show Outline.mk _ _ _ = Outline.mk _ _ _
  rw [Outline.mk.injEq]
  exact ⟨List.append_assoc .., List.append_assoc .., List.append_assoc ..⟩

theorem append_empty (a : Outline) : a ++ empty = a := by
  show Outline.mk _ _ _ = Outline.mk _ _ _
  rw [Outline.mk.injEq]
  exact ⟨List.append_nil _, List.append_nil _, List.append_nil _⟩

theorem empty_append (a : Outline) : empty ++ a = a :=
  rfl

theorem ofFilesFrom_concat (file i e : Nat) (files : List LoadedFile) (g : LoadedFile) :
    ofFilesFrom file i e (files ++ [g]) =
      ((ofFilesFrom file i e files).1 ++
        ofFile (file + files.length) (i + (ofFilesFrom file i e files).1.messages.length)
          (e + (ofFilesFrom file i e files).1.enums.length) g.source,
        (ofFilesFrom file i e files).2 ++
          [schemaFile (i + (ofFilesFrom file i e files).1.messages.length)
            (e + (ofFilesFrom file i e files).1.enums.length) g]) := by
  induction files generalizing file i e with
  | nil =>
    simp only [List.nil_append, ofFilesFrom, append_empty, empty_append]
    rfl
  | cons f rest ih =>
    have hfile : file + (rest.length + 1) = file + 1 + rest.length := by omega
    simp only [List.cons_append, ofFilesFrom, ih, append_assoc, List.length_cons, hfile,
      messages_append, enums_append, List.length_append, Nat.add_assoc]

/-- What a further file adds to the outline of files. -/
def added (files : List LoadedFile) (g : LoadedFile) : Outline :=
  ofFile files.length (ofFiles files).1.messages.length (ofFiles files).1.enums.length g.source

theorem ofFiles_concat (files : List LoadedFile) (g : LoadedFile) :
    (ofFiles (files ++ [g])).1 = (ofFiles files).1 ++ added files g ∧
      ∃ entry, (ofFiles (files ++ [g])).2 = (ofFiles files).2 ++ [entry] := by
  have hconcat := ofFilesFrom_concat 0 0 0 files g
  simp only [Nat.zero_add] at hconcat
  rw [ofFiles, hconcat]
  exact ⟨rfl, _, rfl⟩

/-- The names that a further file adds are in that file. -/
theorem file_of_mem_added {files : List LoadedFile} {g : LoadedFile} {entry : NameEntry}
    (h : entry ∈ (added files g).names) : entry.file = files.length := by
  -- Whatever other files are taken for, the keys are the same.
  have hkeys : keys (fun k => if k = files.length then some g else none) (added files g) =
      keys (fun _ => some g) (added files g) :=
    ofFile_keys (if_pos rfl) _ _ _ _ g.source
  have hnames := List.map_inj_left.mp (congrArg Keys.names hkeys) entry h
  have hfile := congrArg NameKey.file hnames
  by_contra hne
  simp [nameKey, hne] at hfile

end Outline

/-! ### Names -/

namespace Registry

theorem enter_append (fileName : Nat → String) (r : Registry) (a b : List NameEntry) :
    (enter fileName r (a ++ b)).2 =
      (enter fileName r a).2 ++ (enter fileName (enter fileName r a).1 b).2 := by
  induction a generalizing r with
  | nil => rfl
  | cons next rest ih =>
    rw [List.cons_append, enter, enter]
    split
    · exact ih _
    · dsimp only
      split
      · exact congrArg (_ :: ·) (ih _)
      · exact ih _

end Registry

namespace Linking
variable {files : List LoadedFile} {g : LoadedFile} {name : QualifiedName}

theorem declared_iff_entries :
    (∃ d k, Declares files name d k) ↔ ∃ x ∈ files.flatMap (·.source.entries), x.name = name := by
  rw [← Outline.entries_ofFilesFrom 0 0 0 files]
  simp only [List.mem_map, exists_exists_and_eq_and]
  constructor
  · intro h
    obtain ⟨d, k, entry, hentry, hname, _⟩ := h
    exact ⟨entry, hentry, hname⟩
  · intro h
    obtain ⟨entry, hentry, hname⟩ := h
    exact ⟨_, _, entry, hentry, hname, rfl, rfl⟩

theorem package_iff_entries :
    (∃ k, Declares files name .package k) ↔
      ∃ x ∈ files.flatMap (·.source.entries), x.name = name ∧ x.isPackage = true := by
  rw [← Outline.entries_ofFilesFrom 0 0 0 files]
  simp only [List.mem_map, exists_exists_and_eq_and, NameEntry.entry, decide_eq_true_eq]
  constructor
  · intro h
    obtain ⟨k, entry, hentry, hname, hpackage, _⟩ := h
    exact ⟨entry, hentry, hname, hpackage⟩
  · intro h
    obtain ⟨entry, hentry, hname, hpackage⟩ := h
    exact ⟨_, entry, hentry, hname, hpackage, rfl⟩

/-- What is declared once the further file is there, but was not before, is in that file. -/
theorem declares_concat_iff {d : Definition} {k : Nat} :
    Declares (files ++ [g]) name d k ↔ Declares files name d k ∨
      ∃ entry ∈ (Outline.added files g).names,
        entry.name = name ∧ entry.definition = d ∧ entry.file = k := by
  unfold Declares
  rw [(Outline.ofFiles_concat files g).1, Outline.names_append]
  simp only [List.mem_append, or_and_right, exists_or]

/-- Names that do not clash, with a further file that has no clash recorded. -/
theorem clashFree_concat (hfree : ClashFree files)
    (hnone : ∀ x ∈ (Registry.enter (fileName (files ++ [g])) []
      (Outline.ofFiles (files ++ [g])).1.names).2, x.1 ≠ files.length) :
    ClashFree (files ++ [g]) := by
  rw [(Outline.ofFiles_concat files g).1, Outline.names_append, Registry.enter_append] at hnone
  rw [ClashFree, (Outline.ofFiles_concat files g).1, Outline.names_append, Registry.enter_append]
  refine List.append_eq_nil_iff.mpr ⟨?_, List.eq_nil_iff_forall_not_mem.mpr fun x hx => ?_⟩
  · exact Registry.enter_eq_nil_iff.mpr (Registry.enter_eq_nil_iff.mp hfree)
  · obtain ⟨entry, hentry, hfile⟩ := Registry.exists_of_mem_clashes hx
    exact hnone x (List.mem_append_right _ hx)
      (hfile.symm.trans (Outline.file_of_mem_added hentry))

end Linking

/-! ### Names come with those around them -/

theorem Decl.Enum.entries_around {scope pre : QualifiedName} {enums : List Decl.Enum} {x : Entry}
    (hx : x ∈ enums.flatMap (·.entries scope)) (hpre : pre <+: x.name) :
    pre <+: scope ∨ x.name = pre := by
  obtain ⟨e, _, hx⟩ := List.mem_flatMap.mp hx
  obtain ⟨name, _, rfl⟩ := List.mem_map.mp hx
  rcases List.prefix_concat_iff.mp hpre with h | h
  · exact .inr h.symm
  · exact .inl h

mutual

theorem Decl.Message.entries_around {scope pre : QualifiedName} {x : Entry} :
    ∀ m : Decl.Message, x ∈ m.entries scope → pre <+: x.name →
      pre <+: scope ∨ ∃ y ∈ m.entries scope, y.name = pre
  | ⟨name, fields, messages, enums, _, _, _⟩, hx, hpre => by
    rw [Decl.Message.entries] at hx ⊢
    -- inside the message, what is around is the message itself and what is around that
    have haround : pre <+: scope ++ [name.value] → pre <+: scope ∨
        ∃ y ∈ (⟨scope ++ [name.value], false⟩ :: (entriesOf (scope ++ [name.value]) messages ++
          enums.flatMap (·.entries (scope ++ [name.value]))) : List Entry), y.name = pre := by
      intro h
      rcases List.prefix_concat_iff.mp h with rfl | h
      · exact .inr ⟨_, List.mem_cons_self, rfl⟩
      · exact .inl h
    rcases List.mem_cons.mp hx with rfl | hx
    · exact haround hpre
    · rcases List.mem_append.mp hx with hx | hx
      · rcases Decl.Message.entriesOf_around messages hx hpre with h | ⟨y, hy, hname⟩
        · exact haround h
        · exact .inr ⟨y, List.mem_cons_of_mem _ (List.mem_append_left _ hy), hname⟩
      · rcases Decl.Enum.entries_around hx hpre with h | h
        · exact haround h
        · exact .inr ⟨x, List.mem_cons_of_mem _ (List.mem_append_right _ hx), h⟩

theorem Decl.Message.entriesOf_around {scope pre : QualifiedName} {x : Entry} :
    ∀ messages : List Decl.Message, x ∈ entriesOf scope messages → pre <+: x.name →
      pre <+: scope ∨ ∃ y ∈ entriesOf scope messages, y.name = pre
  | [], hx, _ => nomatch hx
  | m :: rest, hx, hpre => by
    rw [Decl.Message.entriesOf] at hx ⊢
    rcases List.mem_append.mp hx with hx | hx
    · rcases Decl.Message.entries_around m hx hpre with h | ⟨y, hy, hname⟩
      · exact .inl h
      · exact .inr ⟨y, List.mem_append_left _ hy, hname⟩
    · rcases Decl.Message.entriesOf_around rest hx hpre with h | ⟨y, hy, hname⟩
      · exact .inl h
      · exact .inr ⟨y, List.mem_append_right _ hy, hname⟩

end

/-- A file declares the names around each name that it declares. -/
theorem SourceFile.entries_around {f : SourceFile} {pre : QualifiedName} {x : Entry}
    (hx : x ∈ f.entries) (hpre : pre <+: x.name) (hne : pre ≠ []) :
    ∃ y ∈ f.entries, y.name = pre := by
  have hscope : pre <+: f.package.getD [] → ∃ y ∈ f.entries, y.name = pre := by
    intro h
    refine ⟨⟨pre, true⟩, List.mem_append_left _ (List.mem_append_left _ ?_), rfl⟩
    exact List.mem_map_of_mem (mem_tail_inits_iff.mpr ⟨h, hne⟩)
  rcases List.mem_append.mp hx with hx | henum
  · rcases List.mem_append.mp hx with hpackage | hmessage
    · obtain ⟨name, hname, rfl⟩ := List.mem_map.mp hpackage
      exact hscope (hpre.trans (mem_tail_inits_iff.mp hname).1)
    · rcases Decl.Message.entriesOf_around _ hmessage hpre with h | ⟨y, hy, hname⟩
      · exact hscope h
      · exact ⟨y, List.mem_append_left _ (List.mem_append_right _ hy), hname⟩
  · rcases Decl.Enum.entries_around henum hpre with h | h
    · exact hscope h
    · exact ⟨x, List.mem_append_right _ henum, h⟩

/-! ### Visible files -/

namespace Visibility
variable {files : List LoadedFile} {g : LoadedFile}

/-- A further file that is not among the imports of those in front of it. -/
def Unimported (files : List LoadedFile) (g : LoadedFile) : Prop :=
  ∀ f ∈ files, g.source.name ∉ f.source.imports

theorem indexOf?_concat {name : String} (h : name ≠ g.source.name) :
    indexOf? (files ++ [g]) name = indexOf? files name := by
  unfold indexOf?
  rw [List.map_append, List.zipIdx_append, List.reverse_append, List.map_singleton,
    List.zipIdx_singleton, List.reverse_singleton, List.singleton_append, List.lookup_cons,
    beq_false_of_ne h]

theorem reached_concat {imports : List String} (known : List (List Nat))
    (h : g.source.name ∉ imports) :
    reached (files ++ [g]) known imports = reached files known imports := by
  unfold reached
  congr 1
  refine List.flatMap_congr fun name hname => ?_
  rw [indexOf?_concat (ne_of_mem_of_not_mem hname h)]

theorem reached_append {imports : List String} {known : List (List Nat)} (more : List (List Nat))
    (h : known.length = files.length) :
    reached files (known ++ more) imports = reached files known imports := by
  unfold reached
  congr 1
  refine List.flatMap_congr fun name _ => ?_
  cases hj : indexOf? files name with
  | none => rfl
  | some j =>
    dsimp only
    rw [List.getD_eq_getElem?_getD, List.getD_eq_getElem?_getD,
      List.getElem?_append_left (h ▸ lt_of_indexOf? hj)]

theorem passedOnFrom_concat {known : List (List Nat)} {rest : List LoadedFile}
    (h : Unimported rest g) :
    passedOnFrom (files ++ [g]) known rest = passedOnFrom files known rest := by
  induction rest generalizing known with
  | nil => rfl
  | cons f rest ih =>
    obtain ⟨hf, hrest⟩ := List.forall_mem_cons.mp h
    rw [passedOnFrom, passedOnFrom, reached_concat, ih hrest]
    exact fun hname => hf (passedOnImports_subset f.source hname)

theorem passedOnFrom_snoc (files : List LoadedFile) (known : List (List Nat))
    (rest : List LoadedFile) (g : LoadedFile) :
    ∃ last, passedOnFrom files known (rest ++ [g]) = passedOnFrom files known rest ++ [last] := by
  induction rest generalizing known with
  | nil => exact ⟨_, rfl⟩
  | cons f rest ih => exact ih _

/-- Files see what they saw before. -/
theorem visible_concat (h : Unimported files g) {k : Nat} (hk : k < files.length) :
    visible (files ++ [g]) k = visible files k := by
  have hf : files[k]? = some files[k] := List.getElem?_eq_getElem hk
  have hf' : (files ++ [g])[k]? = some files[k] := by rw [List.getElem?_append_left hk, hf]
  obtain ⟨last, hlast⟩ := passedOnFrom_snoc (files ++ [g]) [] files g
  have hpassed : passedOn (files ++ [g]) = passedOn files ++ [last] := by
    rw [passedOn, hlast, passedOnFrom_concat h, passedOn]
  rw [visible_eq hf, visible_eq hf', hpassed, reached_concat _ (h _ (List.mem_of_getElem? hf)),
    reached_append _ (passedOn_follows files).2]

/-- A file passes on nothing that comes after it. -/
theorem le_of_mem_passedOn {k j : Nat} (hj : j ∈ (passedOn files).getD k []) : j ≤ k := by
  induction k using Nat.strongRecOn with
  | ind k ih =>
    rw [List.getD_eq_getElem?_getD] at hj
    cases hentry : (passedOn files)[k]? with
    | none =>
      rw [hentry] at hj
      cases hj
    | some entry =>
      rw [hentry, Option.getD_some] at hj
      obtain ⟨f, hf, rfl⟩ := (passedOn_follows files).1 hentry
      rcases List.mem_cons.mp hj with rfl | hreached
      · exact Nat.le_refl _
      · obtain ⟨_, _, b, _, hb⟩ := mem_reached.mp hreached
        rw [List.getD_eq_getElem?_getD, List.getElem?_take] at hb
        split at hb
        · rw [← List.getD_eq_getElem?_getD] at hb
          exact Nat.le_trans (ih b ‹_› hb) (Nat.le_of_lt ‹_›)
        · cases hb

theorem lt_of_mem_visible {k j : Nat} (hk : k < files.length) (hj : j ∈ visible files k) :
    j < files.length := by
  rw [visible_eq (List.getElem?_eq_getElem hk), List.mem_cons, mem_reached] at hj
  rcases hj with rfl | ⟨_, _, b, hb, hj⟩
  · exact hk
  · exact Nat.lt_of_le_of_lt (le_of_mem_passedOn hj) (lt_of_indexOf? hb)

end Visibility

/-! ### Enums -/

namespace Linking
variable {files : List LoadedFile} {g : LoadedFile}

theorem inFiles_added (files : List LoadedFile) (g : LoadedFile) :
    (Outline.added files g).InFiles (files.length = ·) :=
  Outline.ofFile_inFiles rfl _ _ g.source

theorem edition_concat {k : Nat} (h : k < files.length) :
    edition (files ++ [g]) k = edition files k := by
  rw [edition, edition, List.getElem?_append_left h]

theorem enumsOf_concat (files : List LoadedFile) (g : LoadedFile) :
    ∃ more, enumsOf (files ++ [g]) = enumsOf files ++ more := by
  have hfirst : (Outline.ofFiles files).1.enums.map
      (fun e => (e.file, enum (edition (files ++ [g]) e.file) e)) = enumsOf files := by
    refine List.map_congr_left fun e he => ?_
    rw [edition_concat ((Outline.ofFiles_inFiles files).enums e he)]
  rw [enumsOf, checkEnums, (Outline.ofFiles_concat files g).1, Outline.enums_append,
    List.map_append, hfirst]
  exact ⟨_, rfl⟩

theorem ofSetting_append {enums : List Enum} (more : List Enum) (c : Cardinality) {t : FieldType}
    (h : ∀ i, t = .enum i → i < enums.length) (value : Decl.Constant) :
    Default.ofSetting (enums ++ more) c t value = Default.ofSetting enums c t value := by
  cases t with
  | enum i => simp only [Default.ofSetting, List.getElem?_append_left (h i rfl)]
  | scalar | message => rfl

end Linking

/-! ### Boxing -/

namespace Graph
variable {g more : Graph} {a b : Nat}

theorem edge_append_iff (ha : a < g.length) : Edge (g ++ more) a b ↔ g.Edge a b := by
  unfold Edge targets
  rw [List.getD_eq_getElem?_getD, List.getD_eq_getElem?_getD, List.getElem?_append_left ha]

/-- Further nodes cannot be reached from those in front, since these have no edges to them. -/
theorem reaches_append_iff (hrange : g.InRange) (ha : a < g.length) :
    Reaches (g ++ more) a b ↔ g.Reaches a b := by
  constructor
  · intro h
    have hboth : g.Reaches a b ∧ b < g.length := by
      induction h with
      | refl => exact ⟨.refl, ha⟩
      | tail _ hedge ih =>
        have hedge := (edge_append_iff ih.2).mp hedge
        exact ⟨ih.1.tail hedge, hrange hedge⟩
    exact hboth.1
  · intro h
    have hboth : Reaches (g ++ more) a b ∧ b < g.length := by
      induction h with
      | refl => exact ⟨.refl, ha⟩
      | tail _ hedge ih => exact ⟨ih.1.tail ((edge_append_iff ih.2).mpr hedge), hrange hedge⟩
    exact hboth.1

/-- Further nodes that no edge leads to do not change which numbers are the same. -/
theorem componentNumbers_append (hrange : g.InRange) (hall : Graph.InRange (g ++ more))
    (ha : a < g.length) (hb : b < g.length) :
    (componentNumbers (g ++ more))[a]? = (componentNumbers (g ++ more))[b]? ↔
      g.componentNumbers[a]? = g.componentNumbers[b]? := by
  have hle : g.length ≤ (g ++ more).length := by
    rw [List.length_append]
    exact Nat.le_add_right ..
  rw [componentNumbers_eq_iff hall (ha.trans_le hle) (hb.trans_le hle),
    componentNumbers_eq_iff hrange ha hb, reaches_append_iff hrange ha,
    reaches_append_iff hrange hb]

end Graph

namespace Linking

/-- Messages that hold no further ones are boxed as without them. -/
theorem box_append {messages more : List Message} (hrange : (containment messages).InRange)
    (hall : (containment (messages ++ more)).InRange) :
    box messages <+: box (messages ++ more) := by
  have happend : containment (messages ++ more) = containment messages ++ containment more :=
    List.map_append
  unfold box
  rw [List.mapIdx_append]
  refine ⟨_, congrArg (· ++ _) (List.ext_getElem? fun i => ?_)⟩
  rw [List.getElem?_mapIdx, List.getElem?_mapIdx]
  cases hm : messages[i]? with
  | none => rfl
  | some m =>
    have hi : i < (containment messages).length := by
      simpa [containment] using (List.getElem?_eq_some_iff.mp hm).1
    refine congrArg (fun fields => some { m with fields := fields })
      (List.map_congr_left fun f hf => ?_)
    unfold boxField
    split
    · rename_i target htarget
      have hedge := containment_edge.mpr ⟨m, hm, f, hf, htarget⟩
      rw [happend] at hall ⊢
      refine congrArg (fun boxed => { f with boxed }) (Bool.eq_iff_iff.mpr ?_)
      rw [beq_iff_eq, beq_iff_eq]
      exact (Graph.componentNumbers_append hrange hall hi (hrange hedge)).symm
    · rfl

end Linking

end Protobuf
