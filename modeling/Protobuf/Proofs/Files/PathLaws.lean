import Mathlib.Data.List.ReduceOption
import Protobuf.Files.Path

/-! Paths up to dots.

Two paths are compared by one walk along both of them, which passes over dots on either side. What
it finds can be said without the walk: the paths have the same `steps`, which are their components
without the dots (`equivalent_iff`). A name that is spelled from what is left of a path inside a
directory leads back to that path when it is joined to the directory (`steps_join_nameOf`). -/
namespace Protobuf

/-! ### Pieces -/

namespace Split
variable {p : Char → Bool}

theorem pieces_append (front : List Char) {c : Char} (hc : p c = true) (back : List Char) :
    pieces p (front ++ c :: back) = pieces p front ++ pieces p back := by
  induction front with
  | nil => simp [pieces, hc]
  | cons a front ih =>
    simp only [List.cons_append, pieces, ih]
    split
    · rfl
    · cases hfront : pieces p front with
      | nil => exact absurd hfront (pieces_ne_nil p front)
      | cons first others => rfl

theorem pieces_of_forall_not {text : List Char} (h : ∀ c ∈ text, p c = false) :
    pieces p text = [text] := by
  induction text with
  | nil => rfl
  | cons c text ih =>
    have hrest := ih fun d hd => h d (List.mem_cons_of_mem c hd)
    simp [pieces, h c List.mem_cons_self, hrest]

/-- No piece has a separator in it. -/
theorem eq_false_of_mem_pieces {text piece : List Char} (h : piece ∈ pieces p text) {c : Char}
    (hc : c ∈ piece) : p c = false := by
  induction text generalizing piece with
  | nil =>
    rw [pieces, List.mem_singleton] at h
    cases h ▸ hc
  | cons a text ih =>
    rw [pieces] at h
    split at h
    · rcases List.mem_cons.mp h with rfl | h
      · cases hc
      · exact ih h hc
    · rename_i ha
      cases hpieces : pieces p text with
      | nil => exact absurd hpieces (pieces_ne_nil p text)
      | cons first others =>
        rw [hpieces] at h ih
        rcases List.mem_cons.mp h with rfl | h
        · rcases List.mem_cons.mp hc with rfl | hc
          · exact Bool.eq_false_iff.mpr ha
          · exact ih List.mem_cons_self hc
        · exact ih (List.mem_cons_of_mem first h) hc

/-- Pieces without separators can be told apart after they are joined by one. -/
theorem pieces_intercalate {c : Char} (hc : p c = true) {parts : List (List Char)}
    (hne : parts ≠ []) (h : ∀ part ∈ parts, ∀ d ∈ part, p d = false) :
    pieces p ([c].intercalate parts) = parts := by
  induction parts with
  | nil => exact absurd rfl hne
  | cons part parts ih =>
    have hpart := pieces_of_forall_not (h part List.mem_cons_self)
    cases parts with
    | nil => simpa using hpart
    | cons next parts =>
      have hrest := ih (List.cons_ne_nil next parts) fun q hq => h q (List.mem_cons_of_mem part hq)
      rw [List.intercalate_cons_cons, List.append_assoc, List.singleton_append,
        pieces_append part hc, hpart, hrest]
      rfl

end Split

namespace Path

/-! ### Walking along two paths -/

/-- The components of a list that lead somewhere. -/
def leading (list : List Component) : List Component :=
  list.filter (· != .current)

/-- The components of a path without its dots. -/
def steps (path : String) : List Component :=
  leading (components path)

@[simp] theorem leading_nil : leading [] = [] := rfl

@[simp] theorem leading_current (list : List Component) :
    leading (.current :: list) = leading list := rfl

theorem leading_cons {step : Component} (h : step ≠ .current) (list : List Component) :
    leading (step :: list) = step :: leading list :=
  List.filter_cons_of_pos (by simpa using h)

theorem leading_dropWhile (list : List Component) :
    leading (list.dropWhile (· == .current)) = leading list := by
  induction list with
  | nil => rfl
  | cons step list ih =>
    by_cases h : step = .current
    · simp [h, ih]
    · simp [h]

theorem all_current_iff {list : List Component} :
    list.all (· == .current) = true ↔ leading list = [] := by
  simp [leading]

theorem ne_current_of_dropWhile {list rest : List Component} {step : Component}
    (h : list.dropWhile (· == .current) = step :: rest) : step ≠ .current := by
  intro hstep
  have hhead := List.head?_dropWhile_not (· == Component.current) list
  rw [h] at hhead
  simp [hstep] at hhead

/-- What is left after `front` is what leads further than it. Nothing is left of a path that leads
no further. -/
theorem after?_eq_some {path front rest : List Component} (h : after? path front = some rest) :
    leading path = leading front ++ leading rest ∧ (leading rest = [] → rest = []) := by
  fun_induction after? path front with
  | case1 front hall =>
    cases h
    simp [all_current_iff.mp hall]
  | case2 => cases h
  | case3 front path ih => exact ih h
  | case4 step path front hstep hfront =>
    cases h
    have hnil : leading front = [] := by rw [← leading_dropWhile, hfront, leading_nil]
    refine ⟨by simp [hnil], fun h => ?_⟩
    rw [leading_cons hstep] at h
    cases h
  | case5 path front first others hfront hfirst ih =>
    obtain ⟨hleading, hrest⟩ := ih h
    refine ⟨?_, hrest⟩
    rw [← leading_dropWhile front, hfront, leading_cons hfirst, leading_cons hfirst, hleading]
    rfl
  | case6 => cases h

/-- A path that leads on where `front` leads begins with it. -/
theorem exists_after? {path front further : List Component}
    (h : leading path = leading front ++ further) :
    ∃ rest, after? path front = some rest ∧ leading rest = further := by
  fun_induction after? path front with
  | case1 front hall =>
    rw [leading_nil, all_current_iff.mp hall] at h
    exact ⟨[], rfl, h⟩
  | case2 front hall =>
    rw [leading_nil, List.nil_eq_append_iff] at h
    exact absurd (all_current_iff.mpr h.1) hall
  | case3 front path ih => exact ih h
  | case4 step path front hstep hfront =>
    have hnil : leading front = [] := by rw [← leading_dropWhile, hfront, leading_nil]
    exact ⟨step :: path, rfl, by rw [h, hnil, List.nil_append]⟩
  | case5 path front first others hfront hfirst ih =>
    rw [← leading_dropWhile front, hfront, leading_cons hfirst, leading_cons hfirst] at h
    exact ih (List.cons.inj h).2
  | case6 step path front hstep first others hfront hdiffer =>
    rw [← leading_dropWhile front, hfront, leading_cons (ne_current_of_dropWhile hfront),
      leading_cons hstep] at h
    exact absurd (List.cons.inj h).1 hdiffer

/-- **Two paths are equivalent if they have the same steps.** -/
theorem equivalent_iff {a b : String} : equivalent a b = true ↔ steps a = steps b := by
  rw [equivalent, beq_iff_eq]
  constructor
  · intro h
    have hleading := (after?_eq_some h).1
    rwa [leading_nil, List.append_nil] at hleading
  · intro h
    have hsame : leading (components a) = leading (components b) ++ [] := by
      rw [List.append_nil]
      exact h
    obtain ⟨rest, hrest, hnil⟩ := exists_after? hsame
    rw [hrest, (after?_eq_some hrest).2 hnil]

/-! ### Names in a directory -/

/-- A text that is one step of a path. -/
structure IsName (text : String) : Prop where
  slash : '/' ∉ text.toList
  ne_empty : text ≠ ""
  ne_dot : text ≠ "."
  ne_dots : text ≠ ".."

theorem leading_innerComponents (segments : List String) :
    leading (innerComponents segments) = innerComponents segments := by
  refine List.filter_eq_self.mpr fun component h => ?_
  obtain ⟨s, _, hs⟩ := List.mem_filterMap.mp h
  split at hs
  · cases hs
  · split at hs <;> cases hs <;> rfl

theorem innerComponents_append (a b : List String) :
    innerComponents (a ++ b) = innerComponents a ++ innerComponents b :=
  List.filterMap_append

/-- The components of names are these names. -/
theorem innerComponents_of_isName {names : List String} (h : ∀ name ∈ names, IsName name) :
    innerComponents names = names.map .normal := by
  induction names with
  | nil => rfl
  | cons name names ih =>
    have hname := h name List.mem_cons_self
    have hrest := ih fun other hother => h other (List.mem_cons_of_mem name hother)
    have hfirst : innerComponents [name] = [.normal name] := by
      simp [innerComponents, hname.ne_empty, hname.ne_dot, hname.ne_dots]
    rw [← List.singleton_append, innerComponents_append, hfirst, hrest]
    rfl

theorem steps_eq (path : String) :
    steps path = if isAbsolute path then .root :: innerComponents (segments path)
      else innerComponents (segments path) := by
  unfold steps components
  split
  · rw [leading_cons (by decide), leading_innerComponents]
  · split
    · rw [leading_current, leading_innerComponents]
    · rw [leading_innerComponents]

/-- The names in a path are pieces of it. -/
theorem isName_of_mem_steps {path name : String} (h : .normal name ∈ steps path) : IsName name := by
  have hinner : .normal name ∈ innerComponents (segments path) := by
    rw [steps_eq] at h
    split at h
    · exact (List.mem_cons.mp h).resolve_left nofun
    · exact h
  obtain ⟨s, hs, hname⟩ := List.mem_filterMap.mp hinner
  split at hname
  · cases hname
  · rename_i hempty
    split at hname
    · cases hname
    · rename_i hdots
      cases hname
      obtain ⟨piece, hpiece, rfl⟩ := List.mem_map.mp hs
      refine ⟨fun hslash => ?_, fun h => hempty (.inl h), fun h => hempty (.inr h), hdots⟩
      rw [String.toList_ofList] at hslash
      cases Split.eq_false_of_mem_pieces hpiece hslash

/-- The name that components spell is made of them. -/
theorem exists_names_of_nameOf? {list : List Component} {name : String}
    (h : nameOf? list = some name) :
    ∃ names : List String, leading list = names.map .normal ∧ name = "/".intercalate names := by
  have hall : ∀ list : List Component, (list.map Component.name?).all Option.isSome = true →
      list = (list.map Component.name?).reduceOption.map .normal := by
    intro list
    induction list with
    | nil => exact fun _ => rfl
    | cons component list ih =>
      intro h
      rw [List.map_cons, List.all_cons, Bool.and_eq_true] at h
      cases component with
      | normal name =>
        have hcons : (.normal name :: list : List Component).map Component.name? =
            some name :: list.map Component.name? := rfl
        rw [hcons, List.reduceOption_cons_of_some, List.map_cons, ← ih h.2]
      | _ => cases h.1
  rw [nameOf?] at h
  split at h
  · rename_i hsome
    cases h
    exact ⟨_, hall _ hsome, rfl⟩
  · cases h

/-- Names that are joined by slashes are the segments of what they give. -/
theorem segments_intercalate {names : List String} (hne : names ≠ [])
    (h : ∀ name ∈ names, IsName name) : segments ("/".intercalate names) = names := by
  have hslash : ∀ piece ∈ names.map String.toList, ∀ c ∈ piece, (c == '/') = false := by
    intro piece hpiece c hc
    obtain ⟨name, hname, rfl⟩ := List.mem_map.mp hpiece
    refine beq_false_of_ne fun hslash => (h name hname).slash ?_
    rwa [← hslash]
  rw [segments, String.toList_intercalate]
  show (Split.pieces _ (['/'].intercalate (names.map String.toList))).map String.ofList = names
  rw [Split.pieces_intercalate rfl (by simpa using hne) hslash, List.map_map]
  simp [Function.comp_def]

/-- A slash ends a segment. -/
theorem segments_slash (front back : List Char) :
    segments (String.ofList (front ++ '/' :: back)) =
      segments (String.ofList front) ++ segments (String.ofList back) := by
  have hcut := Split.pieces_append (p := (· == '/')) front (c := '/') rfl back
  simp only [segments, String.toList_ofList, hcut, List.map_append]

/-- A relative path is appended to the components of what it is joined to. -/
theorem steps_join (base : String) {path : String} (hpath : isAbsolute path = false) :
    steps (join base path) = steps base ++ steps path := by
  by_cases hbase : base = ""
  · have hnil : steps "" = [] := rfl
    rw [hbase, hnil, List.nil_append, join, if_pos (by simp)]
  · -- in front of the path stands the base with one slash, which it may end with itself
    obtain ⟨front, hjoined, hinner, hhead⟩ : ∃ front : List Char,
        join base path = String.ofList (front ++ '/' :: path.toList) ∧
        innerComponents (segments (String.ofList front)) = innerComponents (segments base) ∧
        (front ++ ['/']).head? = base.toList.head? := by
      rw [join, if_neg (by simp [hpath, hbase])]
      split
      · rename_i hlast
        obtain ⟨front, hfront⟩ := List.getLast?_eq_some_iff.mp hlast
        refine ⟨front, ?_, ?_, by rw [hfront]⟩
        · apply String.toList_inj.mp
          simp [hfront]
        · have hbase : base = String.ofList (front ++ '/' :: []) := by
            rw [← hfront, String.ofList_toList]
          rw [hbase, segments_slash, innerComponents_append]
          exact (List.append_nil _).symm
      · refine ⟨base.toList, ?_, by rw [String.ofList_toList], ?_⟩
        · apply String.toList_inj.mp
          simp
        · rw [List.head?_append_of_ne_nil]
          simpa using hbase
    have habsolute : isAbsolute (join base path) = isAbsolute base := by
      rw [isAbsolute, isAbsolute, hjoined, String.toList_ofList, ← hhead]
      cases front <;> rfl
    rw [steps_eq (join base path), steps_eq base, steps_eq path, habsolute, hpath, hjoined,
      segments_slash, String.ofList_toList, innerComponents_append, hinner]
    split <;> rfl

theorem isAbsolute_intercalate {names : List String} (h : ∀ name ∈ names, IsName name) :
    isAbsolute ("/".intercalate names) = false := by
  rw [isAbsolute, beq_eq_false_iff_ne]
  intro hhead
  cases names with
  | nil => cases hhead
  | cons name names =>
    -- the first name is not empty, so its first character is in front
    have hname := h name List.mem_cons_self
    have hnonempty : name.toList ≠ [] := by simpa using hname.ne_empty
    obtain ⟨c, rest, hc⟩ := List.exists_cons_of_ne_nil hnonempty
    have hfirst : ("/".intercalate (name :: names)).toList.head? = some c := by
      cases names <;> simp [String.toList_intercalate, hc]
    rw [hfirst] at hhead
    cases hhead
    exact hname.slash (hc ▸ List.mem_cons_self)

/-- **A name leads back to the path it was taken from** when it is joined to the directory that the
path was found in. -/
theorem steps_join_nameOf {directory path name : String} {rest : List Component}
    (hrest : inside? directory path = some rest) (hname : nameOf? rest = some name)
    (hne : name ≠ "") : steps (join directory name) = steps path := by
  have hpath : steps path = steps directory ++ leading rest := (after?_eq_some hrest).1
  obtain ⟨names, hleading, rfl⟩ := exists_names_of_nameOf? hname
  have hnames : ∀ part ∈ names, IsName part := by
    intro part hpart
    have hstep : .normal part ∈ steps path := by
      rw [hpath, hleading]
      exact List.mem_append_right _ (List.mem_map_of_mem hpart)
    exact isName_of_mem_steps hstep
  have hsome : names ≠ [] := by
    intro hnil
    exact hne (by rw [hnil]; rfl)
  have habsolute := isAbsolute_intercalate hnames
  rw [steps_join directory habsolute, hpath, hleading, steps_eq ("/".intercalate names), habsolute,
    segments_intercalate hsome hnames, innerComponents_of_isName hnames]
  rfl

end Path

end Protobuf
