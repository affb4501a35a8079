import Protobuf.Proofs.Code.LegalNames

/-! Where the paths between generated types lead.

A path is written in a module and is read there: its segments stand between double colons, `super`
leads to the module around, every other segment into a module of that name, and the last one is the
item (`walk`). Escaping keeps `super` and colons out of the names of modules, so that a path up to
the common module and down again leads to the item that it was written for, from wherever it was
written (`walk_relative`). The types of all fields of a linked schema are found this way
(`paths_lead`). -/
namespace Protobuf

namespace ModulePath

/-! ### Reading a path -/

/-- The segments of a path, which stand between double colons. -/
def segments : List Char → List (List Char)
  | [] => [[]]
  | ':' :: ':' :: rest => [] :: segments rest
  | c :: rest => (segments rest).modifyHead (c :: ·)

/-- One step of a walk: to the module around, if there is one, or into a module. -/
def follow (here : ModulePath) (segment : String) : Option ModulePath :=
  if segment = "super" then if here = [] then none else some here.dropLast
  else some (here ++ [segment])

/-- The module that a path leads to from where it is written, and the item that it names there. -/
def walk (source : ModulePath) (path : String) : Option (ModulePath × String) :=
  let names := (segments path.toList).map String.ofList
  (names.dropLast.foldlM follow source).map fun target => (target, names.getLastD "")

theorem segments_cons {c : Char} (h : c ≠ ':') (rest : List Char) :
    segments (c :: rest) = (segments rest).modifyHead (c :: ·) := by
  rw [segments]
  intro _ hc
  exact absurd hc h

theorem segments_append {name : List Char} (h : ':' ∉ name) (rest : List Char) :
    segments (name ++ ':' :: ':' :: rest) = name :: segments rest := by
  induction name with
  | nil => rw [List.nil_append, segments]
  | cons c name ih =>
    obtain ⟨hc, hname⟩ := not_or.mp (mt List.mem_cons.mpr h)
    rw [List.cons_append, segments_cons (Ne.symm hc), ih hname]
    rfl

theorem segments_of_notMem {name : List Char} (h : ':' ∉ name) : segments name = [name] := by
  induction name with
  | nil => rfl
  | cons c name ih =>
    obtain ⟨hc, hname⟩ := not_or.mp (mt List.mem_cons.mpr h)
    rw [segments_cons (Ne.symm hc), ih hname]
    rfl

/-- Names without colons can be told apart after they are joined. -/
theorem segments_intercalate {names : List String} (hne : names ≠ [])
    (h : ∀ name ∈ names, ':' ∉ name.toList) :
    (segments ("::".intercalate names).toList).map String.ofList = names := by
  induction names with
  | nil => exact absurd rfl hne
  | cons name names ih =>
    obtain ⟨hname, hnames⟩ := List.forall_mem_cons.mp h
    cases names with
    | nil => simp [segments_of_notMem hname]
    | cons next names =>
      have hrest := ih (List.cons_ne_nil next names) hnames
      rw [String.intercalate_cons_cons, String.toList_append, String.toList_append,
        List.append_assoc, show "::".toList = [':', ':'] from rfl, List.cons_append,
        List.cons_append, List.nil_append, segments_append hname, List.map_cons, hrest,
        String.ofList_toList]

/-! ### Up and down -/

theorem take_common (source target : ModulePath) :
    source.take (common source target) = target.take (common source target) := by
  fun_induction common source target with
  | case1 a as bs ih => rw [List.take_succ_cons, List.take_succ_cons, ih]
  | case2 a as b bs hne => rw [List.take_zero, List.take_zero]
  | case3 source target hno => rw [List.take_zero, List.take_zero]

theorem common_le_length (source target : ModulePath) : common source target ≤ source.length := by
  fun_induction common source target with
  | case1 a as bs ih => exact Nat.succ_le_succ ih
  | case2 a as b bs hne => exact Nat.zero_le _
  | case3 source target hno => exact Nat.zero_le _

/-- The way up passes the modules around, as long as there are any. -/
theorem follow_up {here : ModulePath} {count : Nat} (h : count ≤ here.length) :
    (List.replicate count "super").foldlM follow here =
      some (here.take (here.length - count)) := by
  induction count generalizing here with
  | zero => simp
  | succ count ih =>
    have hne : here ≠ [] := List.ne_nil_of_length_pos (Nat.lt_of_lt_of_le (Nat.succ_pos count) h)
    have hcount : count ≤ here.dropLast.length := by
      rw [List.length_dropLast]
      omega
    rw [List.replicate_succ, List.foldlM_cons, follow, if_pos rfl, if_neg hne]
    show List.foldlM follow here.dropLast _ = _
    rw [ih hcount, List.length_dropLast, List.dropLast_eq_take, List.take_take]
    congr 2
    omega

/-- The way down goes into each module of the path. -/
theorem follow_down {path : List String} (h : "super" ∉ path) (here : ModulePath) :
    path.foldlM follow here = some (here ++ path) := by
  induction path generalizing here with
  | nil => rw [List.append_nil]; rfl
  | cons segment path ih =>
    obtain ⟨hsegment, hpath⟩ := not_or.mp (mt List.mem_cons.mpr h)
    rw [List.foldlM_cons, follow, if_neg (Ne.symm hsegment)]
    show List.foldlM follow (here ++ [segment]) path = _
    rw [ih hpath, List.append_assoc, List.singleton_append]

theorem follow_steps {target : ModulePath} (h : "super" ∉ target) (source : ModulePath) :
    (steps source target).foldlM follow source = some target := by
  have hle := common_le_length source target
  have hdown : "super" ∉ target.drop (common source target) := mt List.mem_of_mem_drop h
  rw [steps, List.foldlM_append, follow_up (Nat.sub_le _ _), Nat.sub_sub_self hle, take_common]
  show List.foldlM follow _ _ = _
  rw [follow_down hdown, List.take_append_drop]

/-- **A relative path leads to its item**, from every module. -/
theorem walk_relative {target : ModulePath} {item : String} (hsuper : "super" ∉ target)
    (hcolon : ∀ name ∈ target, ':' ∉ name.toList) (hitem : ':' ∉ item.toList)
    (source : ModulePath) : walk source (relative source target item) = some (target, item) := by
  have hnames : ∀ name ∈ steps source target ++ [item], ':' ∉ name.toList := by
    intro name hname
    rcases List.mem_append.mp hname with hname | hname
    · rcases List.mem_append.mp hname with hname | hname
      · rw [List.eq_of_mem_replicate hname]
        decide
      · exact hcolon name (List.mem_of_mem_drop hname)
    · rw [List.mem_singleton.mp hname]
      exact hitem
  rw [walk, relative, segments_intercalate (by simp) hnames]
  simp only [List.dropLast_concat, follow_steps hsuper]
  simp

end ModulePath

/-! ### Names of modules and types -/

namespace Ident

theorem notMem_of_plain {name : String} (h : IsPlain name) {c : Char}
    (hc : Lexer.isWordChar c = false) : c ∉ name.toList := by
  intro hmem
  rw [h c hmem] at hc
  cases hc

/-- Escaping brings in no character but the one of raw identifiers. -/
theorem notMem_escape {name : String} (h : IsPlain name) {c : Char}
    (hc : Lexer.isWordChar c = false) (hraw : c ≠ '#') : c ∉ (escape name).toList := by
  have hletter : c ≠ 'r' := by
    rintro rfl
    cases hc
  unfold escape
  split
  · exact notMem_of_plain (marked_plain h) hc
  split
  · simpa [hraw, hletter] using notMem_of_plain h hc
  · exact notMem_of_plain h hc

theorem escape_ne_super (name : String) : escape name ≠ "super" := by
  have hmarked : ∀ word ∈ pathKeywords, word ++ "_" ≠ "super" := by decide
  unfold escape
  split
  · exact hmarked name (by assumption)
  split
  · exact raw_ne (List.all_eq_true.mp rfl)
  · rename_i hname _
    rintro rfl
    exact hname (by decide)

theorem super_notMem (scope : QualifiedName) : "super" ∉ scope.map moduleName := by
  intro hmem
  obtain ⟨name, -, hname⟩ := List.mem_map.mp hmem
  exact escape_ne_super (snake name) hname

theorem colon_notMem_moduleName {scope : QualifiedName} :
    ∀ name ∈ scope.map moduleName, ':' ∉ name.toList := by
  intro name hname
  obtain ⟨part, -, rfl⟩ := List.mem_map.mp hname
  exact notMem_escape (snake_plain part) rfl (by decide)

/-- The modules of a path have names that the language does not keep for itself. -/
theorem legal_of_mem_steps (source : ModulePath) {scope : QualifiedName}
    (h : ∀ part ∈ scope, Lexer.isIdentifier part = true) :
    ∀ segment ∈ ModulePath.steps source (scope.map moduleName),
      segment = "super" ∨ Legal segment := by
  intro segment hsegment
  rcases List.mem_append.mp hsegment with hup | hdown
  · exact .inl (List.eq_of_mem_replicate hup)
  · obtain ⟨part, hpart, rfl⟩ := List.mem_map.mp (List.mem_of_mem_drop hdown)
    exact .inr ((legal_escape_iff (snake_plain part)).mpr (isIdentifier_snake (h part hpart)))

end Ident

/-! ### Fields of a schema -/

namespace Linking
open Lexer (isIdentifier)
variable {files : List LoadedFile} {s : Schema}

/-- The path to a definition leads to it, from wherever it is written. -/
theorem walk_place (hplain : ∀ f ∈ files, f.source.decl.Plain) (h : link files = .ok s)
    {d : Place} (hd : d ∈ s.places) (home : ModulePath) :
    ModulePath.walk home
        (ModulePath.relative home (ModulePath.of s d.file d.parent) (Ident.escape d.name)) =
      some (ModulePath.of s d.file d.parent, Ident.escape d.name) := by
  rw [modulePath_of_named (named_of_mem_places h hd)]
  exact ModulePath.walk_relative (Ident.super_notMem _) Ident.colon_notMem_moduleName
    (Ident.notMem_escape (name_plain hplain h hd) rfl (by decide)) home

/-- **Relative paths lead to the right module.** Between modules named after identifiers of the
source, a path to an item goes through `super` and legal names only, and it leads to that item. So
the path that is written for the type of a field, in the module of the message that has it, leads to
the module of the type and to its name there. -/
theorem paths_lead :
    (∀ (source target : QualifiedName) (name : String),
      (∀ part ∈ source, isIdentifier part = true) → (∀ part ∈ target, isIdentifier part = true) →
      isIdentifier name = true →
      (∀ segment ∈
          ModulePath.steps (source.map Ident.moduleName) (target.map Ident.moduleName),
        segment = "super" ∨ Ident.Legal segment) ∧
      ∀ item ∈ [name, Ident.escape name],
        ModulePath.walk (source.map Ident.moduleName) (ModulePath.relative
          (source.map Ident.moduleName) (target.map Ident.moduleName) item) =
        some (target.map Ident.moduleName, item)) ∧
    ∀ (files : List LoadedFile) (s : Schema),
      (∀ f ∈ files,
        SourceFile.ofText f.source.name f.source.path f.source.text = .ok f.source) →
      link files = .ok s → ∀ m ∈ s.messages, ∀ f ∈ m.fields, ∀ i,
      (f.type = .message i → ∃ d, s.messages[i]? = some d ∧
        ModulePath.walk (ModulePath.of s m.file m.parent)
            (ModulePath.toMessage s (ModulePath.of s m.file m.parent) i) =
          some (ModulePath.of s d.file d.parent, Ident.escape d.name)) ∧
      (f.type = .enum i → ∃ d, s.enums[i]? = some d ∧
        ModulePath.walk (ModulePath.of s m.file m.parent)
            (ModulePath.toEnum s (ModulePath.of s m.file m.parent) i) =
          some (ModulePath.of s d.file d.parent, Ident.escape d.name)) := by
  refine ⟨fun source target name _ htarget hname => ?_, fun files s hparsed h m hm f hf i =>
    ⟨fun htype => ?_, fun htype => ?_⟩⟩
  · have hitem : ∀ item ∈ [name, Ident.escape name], ':' ∉ item.toList := by
      have hplainName : IsPlain name := (Ident.isIdentifier_iff_head?.mp hname).2
      simp [Ident.notMem_of_plain hplainName (c := ':') rfl,
        Ident.notMem_escape hplainName (c := ':') rfl (by decide)]
    exact ⟨Ident.legal_of_mem_steps _ htarget, fun item hmem => ModulePath.walk_relative
      (Ident.super_notMem _) Ident.colon_notMem_moduleName (hitem item hmem) _⟩
  · have hd := List.getElem?_eq_getElem (message_type_lt h hm hf htype)
    have hplace := List.mem_append_left (s.enums.map (·.place))
      (List.mem_map_of_mem (f := Message.place) (List.mem_of_getElem? hd))
    refine ⟨_, hd, ?_⟩
    rw [ModulePath.toMessage, hd]
    exact walk_place (plain_of_parsed hparsed) h hplace _
  · have hd := List.getElem?_eq_getElem (enum_type_lt h hm hf htype)
    have hplace := List.mem_append_right (s.messages.map (·.place))
      (List.mem_map_of_mem (f := Enum.place) (List.mem_of_getElem? hd))
    refine ⟨_, hd, ?_⟩
    rw [ModulePath.toEnum, hd]
    exact walk_place (plain_of_parsed hparsed) h hplace _

end Linking

/-! ### A map in a package named after a keyword -/

namespace Chart

def text : String :=
  "package geo.super; message Map \x7b message Frame \x7b message Corner \x7b " ++
  "optional Point at=1; optional Unit unit=2; \x7d \x7d message Point \x7b\x7d \x7d " ++
  "enum Unit \x7b MM=0; \x7d"

def files : List LoadedFile :=
  [⟨⟨"map.proto", none, text, (Grammar.read text).1.getD (.empty .proto2)⟩, true⟩]

def corner : Message :=
  ⟨"Corner", ["geo", "super", "Map", "Frame", "Corner"], 0, some 1,
    [⟨"at", 1, .optional, .message 3, false, none, false⟩,
      ⟨"unit", 2, .optional, .enum 0, false, none, false⟩], [], []⟩

def schema : Schema :=
  { files := [⟨"map.proto", some ["geo", "super"], .proto2, [0], [0], true⟩]
    messages :=
      [⟨"Map", ["geo", "super", "Map"], 0, none, [], [1, 3], []⟩,
        ⟨"Frame", ["geo", "super", "Map", "Frame"], 0, some 0, [], [2], []⟩,
        corner,
        ⟨"Point", ["geo", "super", "Map", "Point"], 0, some 0, [], [], []⟩]
    enums := [⟨"Unit", ["geo", "super", "Unit"], 0, none, [⟨"MM", 0⟩]⟩] }

/-- The text has no faults and is linked. Both are decided at once, so that it is read once. -/
theorem read_link_text :
    (Grammar.read text).2 = [] ∧ (Linking.link files).toOption = some schema := by
  decide +kernel

theorem files_parsed : ∀ f ∈ files,
    SourceFile.ofText f.source.name f.source.path f.source.text = .ok f.source :=
  SourceFile.forall_mem_ofText read_link_text.1

theorem link_files : Linking.link files = .ok schema :=
  Linking.link_of_toOption read_link_text.2

end Chart

namespace Linking

/-- From the corner of a frame, the way is up to the map for a point, and up to the package for a
unit. -/
theorem paths_lead_corner :
    link Chart.files = .ok Chart.schema ∧
      ModulePath.of Chart.schema Chart.corner.file Chart.corner.parent =
        ["geo", "super_", "map", "frame"] ∧
      ModulePath.walk ["geo", "super_", "map", "frame"] "super::Point" =
        some (["geo", "super_", "map"], "Point") ∧
      ModulePath.walk ["geo", "super_", "map", "frame"] "super::super::Unit" =
        some (["geo", "super_"], "Unit") := by
  have hhome : ModulePath.of Chart.schema Chart.corner.file Chart.corner.parent =
      ["geo", "super_", "map", "frame"] := by decide
  have hfields := paths_lead.2 _ _ Chart.files_parsed Chart.link_files Chart.corner (by decide)
  rw [hhome] at hfields
  obtain ⟨point, hpoint, hat⟩ := (hfields _ List.mem_cons_self 3).1 rfl
  obtain ⟨unit, hunit, hin⟩ := (hfields _ (List.mem_cons_of_mem _ List.mem_cons_self) 0).2 rfl
  cases hpoint
  cases hunit
  have hpaths : ModulePath.toMessage Chart.schema ["geo", "super_", "map", "frame"] 3 =
      "super::Point" ∧ ModulePath.toEnum Chart.schema ["geo", "super_", "map", "frame"] 0 =
      "super::super::Unit" := by decide
  have hmodules : ModulePath.of Chart.schema 0 (some 0) = ["geo", "super_", "map"] ∧
      ModulePath.of Chart.schema 0 none = ["geo", "super_"] := by decide
  rw [hpaths.1] at hat
  rw [hpaths.2] at hin
  refine ⟨Chart.link_files, hhome, hat.trans ?_, hin.trans ?_⟩
  · rw [hmodules.1]
    rfl
  · rw [hmodules.2]
    rfl

end Linking

end Protobuf
