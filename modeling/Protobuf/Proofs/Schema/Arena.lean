import Protobuf.Proofs.Schema.Declared
import Protobuf.Proofs.Schema.Numbering

/-! How the definitions of a linked schema lie.

Messages and enums are kept in two lists and refer to each other by number; code generation looks
numbers up and walks from a definition to the messages around it without any check. `Arranged` says
why that is safe: each definition is listed once, at the top of its file or inside its parent, a
message comes after its parent, so that every walk outwards ends, and full names are made of the
names on that walk. With `Shows`, the lists of a schema are read as a tree of declarations; for a
linked schema it is the tree of its files (`arranged_of_link`). -/
namespace Protobuf

def Message.place (m : Message) : Place :=
  ⟨m.name, m.fullName, m.file, m.parent⟩

def Enum.place (e : Enum) : Place :=
  ⟨e.name, e.fullName, e.file, e.parent⟩

/-- Definitions of one kind, and the numbers of those at the top of each file and inside each
message. -/
structure Listing where
  places : List Place
  tops : List (List Nat)
  nested : List (List Nat)

/-- Each definition is listed once: at the top of its file, if it has no parent, and otherwise
inside its parent. -/
structure Listing.Exact (l : Listing) : Prop where
  once : (l.tops.flatten ++ l.nested.flatten).Perm (List.range l.places.length)
  top_iff : ∀ {i k : Nat} {d : Place} {list : List Nat}, l.places[i]? = some d →
    l.tops[k]? = some list → (i ∈ list ↔ d.file = k ∧ d.parent = none)
  nested_iff : ∀ {i p : Nat} {d : Place} {list : List Nat}, l.places[i]? = some d →
    l.nested[p]? = some list → (i ∈ list ↔ d.parent = some p)

namespace Schema

def messageListing (s : Schema) : Listing :=
  ⟨s.messages.map (·.place), s.files.map (·.messages), s.messages.map (·.messages)⟩

def enumListing (s : Schema) : Listing :=
  ⟨s.enums.map (·.place), s.files.map (·.enums), s.messages.map (·.enums)⟩

def listing (s : Schema) : Kind → Listing
  | .message => s.messageListing
  | .enum => s.enumListing

/-- Where all definitions stand. -/
def places (s : Schema) : List Place :=
  s.messageListing.places ++ s.enumListing.places

/-- The full name of a definition is made of its package and of the names on the walk outwards. -/
def Named (s : Schema) (d : Place) : Prop :=
  ∃ f, s.files[d.file]? = some f ∧
    d.fullName = f.package.getD [] ++ s.enclosing d.parent ++ [d.name]

/-- The definitions of a schema lie in order. -/
structure Arranged (s : Schema) : Prop where
  messages : s.messageListing.Exact
  enums : s.enumListing.Exact
  sameFile : ∀ d ∈ s.places, ∀ p, d.parent = some p →
    ∃ q, s.messages[p]? = some q ∧ q.file = d.file
  parent_lt : ∀ {i p : Nat} {m : Message}, s.messages[i]? = some m → m.parent = some p → p < i
  enclosing : ∀ {p : Nat} {q : Message}, s.messages[p]? = some q →
    s.enclosing (some p) = s.enclosing q.parent ++ [q.name]
  named : ∀ d ∈ s.places, s.Named d

/-! ### All numbers in a schema -/

/-- The message numbers that are stored anywhere. -/
def messageNumbers (s : Schema) : List Nat :=
  s.files.flatMap (·.messages) ++ s.messages.flatMap (·.messages) ++
    s.places.filterMap (·.parent) ++
    (s.messages.flatMap (·.fields)).filterMap fun f =>
      match f.type with
      | .message index => some index
      | _ => none

/-- The enum numbers that are stored anywhere. -/
def enumNumbers (s : Schema) : List Nat :=
  s.files.flatMap (·.enums) ++ s.messages.flatMap (·.enums) ++
    (s.messages.flatMap (·.fields)).filterMap fun f =>
      match f.type with
      | .enum index => some index
      | _ => none

/-- The file numbers that are stored anywhere. -/
def fileNumbers (s : Schema) : List Nat :=
  s.places.map (·.file)

/-- Every stored number is one of a definition or file. -/
structure InRange (s : Schema) : Prop where
  messages : ∀ index ∈ s.messageNumbers, index < s.messages.length
  enums : ∀ index ∈ s.enumNumbers, index < s.enums.length
  files : ∀ index ∈ s.fileNumbers, index < s.files.length

/-! ### The tree of declarations -/

/-- The enum with this number is the declared one. -/
def ShowsEnum (s : Schema) (index : Nat) (d : Decl.Enum) : Prop :=
  ∃ e, s.enums[index]? = some e ∧ e.name = d.name.value ∧
    e.values.map (·.name) = d.values.map (·.name.value)

/-- The message with this number is the declared one, with all that is declared in it. -/
inductive Shows (s : Schema) : Nat → Decl.Message → Prop where
  | message {index : Nat} {m : Message} {d : Decl.Message} (hm : s.messages[index]? = some m)
      (hname : m.name = d.name.value)
      (hfields : m.fields.map (·.name) = d.fields.map (·.name.value))
      (hmessages : List.Forall₂ (Shows s) m.messages d.messages)
      (henums : List.Forall₂ s.ShowsEnum m.enums d.enums) : Shows s index d

/-- The entry of a file has all that is declared in the file. -/
structure ShowsFile (s : Schema) (f : LoadedFile) (entry : SchemaFile) : Prop where
  name : entry.name = f.source.name
  package : entry.package = f.source.package
  messages : List.Forall₂ s.Shows entry.messages f.source.decl.messages
  enums : List.Forall₂ s.ShowsEnum entry.enums f.source.decl.enums

end Schema

/-! ### Names stand for what has their number -/

namespace Linking
variable {files : List LoadedFile} {s : Schema} {name : QualifiedName} {index file : Nat}

theorem declares_iff (kind : Kind) :
    Declares files name (kind.definition index) file ↔ ∃ d,
      ((Outline.ofFiles files).1.places kind)[index]? = some d ∧ d.fullName = name ∧
        d.file = file := by
  have hmem := congrArg ((index, name, file) ∈ ·) (Outline.ofFiles_labelled files kind)
  simp only [List.mem_filterMap, List.mem_map, eq_iff_iff] at hmem
  constructor
  · rintro ⟨entry, hentry, rfl, hdefinition, rfl⟩
    have hlabel : Outline.label? kind entry = some (index, entry.name, entry.file) := by
      rw [Outline.label?, Kind.number?_eq_some_iff.mpr hdefinition, Option.map_some]
    obtain ⟨x, hx, hsame⟩ := hmem.mp ⟨entry, hentry, hlabel⟩
    simp only [Prod.mk.injEq] at hsame
    obtain ⟨rfl, hsame⟩ := hsame
    exact ⟨x.1, List.mem_zipIdx_iff_getElem?.mp hx, hsame⟩
  · rintro ⟨d, hd, rfl, rfl⟩
    obtain ⟨entry, hentry, hlabel⟩ :=
      hmem.mpr ⟨(d, index), List.mem_zipIdx_iff_getElem?.mpr hd, rfl⟩
    obtain ⟨number, hnumber, hsame⟩ := Option.map_eq_some_iff.mp hlabel
    simp only [Prod.mk.injEq] at hsame
    obtain ⟨rfl, hname, hfile⟩ := hsame
    exact ⟨entry, hentry, hname, Kind.number?_eq_some_iff.mp hnumber, hfile⟩

end Linking

/-! ### Where the definitions of a linked schema stand -/

/-- Each number is listed once, and what is listed stands where it is listed. -/
structure Listing.Right (s : Schema) (l : Listing) : Prop where
  once : (l.tops.flatten ++ l.nested.flatten).Perm (List.range l.places.length)
  top : ∀ {i k : Nat} {list : List Nat}, l.tops[k]? = some list → i ∈ list →
    ∃ d f, l.places[i]? = some d ∧ s.files[k]? = some f ∧ d.At ⟨k, f.package.getD [], none⟩
  nested : ∀ {i p : Nat} {list : List Nat}, l.nested[p]? = some list → i ∈ list →
    ∃ d q, l.places[i]? = some d ∧ s.messages[p]? = some q ∧ d.At ⟨q.file, q.fullName, some p⟩

namespace Listing.Right
variable {s : Schema} {l : Listing} {i : Nat} {d : Place}

theorem listed (h : l.Right s) (hd : l.places[i]? = some d) :
    (∃ (k : Nat) (list : List Nat), l.tops[k]? = some list ∧ i ∈ list) ∨
      ∃ (p : Nat) (list : List Nat), l.nested[p]? = some list ∧ i ∈ list := by
  have hi : i ∈ List.range l.places.length :=
    List.mem_range.mpr (List.getElem?_eq_some_iff.mp hd).1
  rcases List.mem_append.mp (h.once.mem_iff.mpr hi) with hmem | hmem
  all_goals
    obtain ⟨list, hlist, hmem⟩ := List.mem_flatten.mp hmem
    obtain ⟨k, hk⟩ := List.mem_iff_getElem?.mp hlist
  · exact .inl ⟨k, list, hk, hmem⟩
  · exact .inr ⟨k, list, hk, hmem⟩

/-- A definition stands at the top of its file, or inside its parent. -/
theorem stands (h : l.Right s) (hd : l.places[i]? = some d) :
    (∃ (k : Nat) (list : List Nat) (f : SchemaFile), l.tops[k]? = some list ∧ i ∈ list ∧
      s.files[k]? = some f ∧ d.At ⟨k, f.package.getD [], none⟩) ∨
    ∃ (p : Nat) (list : List Nat) (q : Message), l.nested[p]? = some list ∧ i ∈ list ∧
      s.messages[p]? = some q ∧ d.At ⟨q.file, q.fullName, some p⟩ := by
  rcases h.listed hd with ⟨k, list, hlist, hi⟩ | ⟨p, list, hlist, hi⟩
  · obtain ⟨d', f, hd', hf, hat⟩ := h.top hlist hi
    cases hd.symm.trans hd'
    exact .inl ⟨k, list, f, hlist, hi, hf, hat⟩
  · obtain ⟨d', q, hd', hq, hat⟩ := h.nested hlist hi
    cases hd.symm.trans hd'
    exact .inr ⟨p, list, q, hlist, hi, hq, hat⟩

theorem exact (h : l.Right s) : l.Exact where
  once := h.once
  top_iff {i k d list} hd hlist := by
    constructor
    · intro hi
      obtain ⟨d', f, hd', hf, hat⟩ := h.top hlist hi
      cases hd.symm.trans hd'
      exact hat.2
    · rintro ⟨hfile, hparent⟩
      rcases h.stands hd with ⟨k', list', f, hlist', hi, _, _, hk, _⟩ | ⟨p, _, _, _, _, _, _, _, hp⟩
      · cases hk.symm.trans hfile
        cases hlist.symm.trans hlist'
        exact hi
      · cases hp.symm.trans hparent
  nested_iff {i p d list} hd hlist := by
    constructor
    · intro hi
      obtain ⟨d', q, hd', hq, hat⟩ := h.nested hlist hi
      cases hd.symm.trans hd'
      exact hat.2.2
    · intro hparent
      rcases h.stands hd with ⟨_, _, _, _, _, _, _, _, hk⟩ | ⟨p', list', q, hlist', hi, _, _, _, hp⟩
      · cases hk.symm.trans hparent
      · cases hp.symm.trans hparent
        cases hlist.symm.trans hlist'
        exact hi

/-- The parent of a definition is a message of the same file. -/
theorem parent_exists (h : l.Right s) (hd : l.places[i]? = some d) {p : Nat}
    (hp : d.parent = some p) : ∃ q, s.messages[p]? = some q ∧ q.file = d.file ∧
      d.fullName = q.fullName ++ [d.name] := by
  rcases h.stands hd with ⟨_, _, _, _, _, _, _, _, hk⟩ | ⟨p', _, q, _, _, hq, hname, hfile, hp'⟩
  · cases hk.symm.trans hp
  · cases hp'.symm.trans hp
    exact ⟨q, hq, hfile.symm, hname⟩

theorem top_named (h : l.Right s) (hd : l.places[i]? = some d) (hp : d.parent = none) :
    ∃ f, s.files[d.file]? = some f ∧ d.fullName = f.package.getD [] ++ [d.name] := by
  rcases h.stands hd with ⟨k, _, f, _, _, hf, hname, rfl, _⟩ | ⟨_, _, _, _, _, _, _, _, hp'⟩
  · exact ⟨f, hf, hname⟩
  · cases hp'.symm.trans hp

end Listing.Right

namespace Linking
variable {files : List LoadedFile} {s : Schema} {i k : Nat}

theorem fileAt_of_link (h : link files = .ok s) {entry : SchemaFile}
    (hentry : s.files[k]? = some entry) :
    ∃ f, files[k]? = some f ∧ (Outline.ofFiles files).1.FileAt k f entry := by
  rw [files_of_link h] at hentry
  obtain ⟨⟨f, n⟩, hf, hat⟩ := exists_of_forall₂_right (Outline.ofFiles_at files) hentry
  rw [List.getElem?_zipIdx, Option.map_eq_some_iff] at hf
  obtain ⟨f', hf', hsame⟩ := hf
  cases hsame
  rw [Nat.zero_add] at hat
  exact ⟨f, hf', hat⟩

theorem nests_of_link (h : link files = .ok s) {q : Message} (hq : s.messages[i]? = some q) :
    ∃ m, (Outline.ofFiles files).1.messages[i]? = some m ∧ m.frame = q.frame ∧
      (Outline.ofFiles files).1.Nests i m := by
  obtain ⟨m, hm, hframe⟩ := exists_outline_of_link h hq
  exact ⟨m, hm, hframe, Outline.ofFiles_nests files hm⟩

theorem listing_of_link (h : link files = .ok s) (kind : Kind) :
    s.listing kind = ⟨(Outline.ofFiles files).1.places kind,
      (Outline.ofFiles files).2.map (·.tops kind),
      (Outline.ofFiles files).1.messages.map (·.nested kind)⟩ := by
  have hframes {α : Type} (key : Message → α) : s.messages.map (fun m => key m.frame) =
      (Outline.ofFiles files).1.messages.map fun m => key m.frame := by
    have hmap := congrArg (List.map key) (frames_of_link h)
    rw [List.map_map, List.map_map] at hmap
    exact hmap
  rw [← files_of_link h]
  cases kind with
  | message =>
    rw [Schema.listing, Schema.messageListing, Listing.mk.injEq]
    exact ⟨hframes Message.place, rfl, hframes Message.messages⟩
  | enum =>
    have hplaces := congrArg (List.map Enum.place) (enumFrames_of_link h)
    rw [List.map_map, List.map_map] at hplaces
    rw [Schema.listing, Schema.enumListing, Listing.mk.injEq]
    exact ⟨hplaces, rfl, hframes Message.enums⟩

/-- Linked definitions stand where they are declared. -/
theorem places_of_link (h : link files = .ok s) (kind : Kind) :
    (s.listing kind).places = (Outline.ofFiles files).1.places kind := by
  rw [listing_of_link h]

theorem listing_right (h : link files = .ok s) (kind : Kind) : (s.listing kind).Right s := by
  rw [listing_of_link h]
  refine ⟨?_, fun {i k list} hlist hi => ?_, fun {i p list} hlist hi => ?_⟩
  · have honce := Outline.ofFiles_once files kind
    rwa [List.flatMap_def, List.flatMap_def] at honce
  · obtain ⟨entry, hentry, rfl⟩ := Option.map_eq_some_iff.mp (List.getElem?_map ▸ hlist)
    rw [← files_of_link h] at hentry
    obtain ⟨f, hf, hat⟩ := fileAt_of_link h hentry
    obtain ⟨_, _, d, hd, _, hplace⟩ := exists_of_forall₂_mem (hat.placed kind) hi
    exact ⟨d, entry, hd, hentry, hat.package ▸ hplace⟩
  · obtain ⟨m, hm, rfl⟩ := Option.map_eq_some_iff.mp (List.getElem?_map ▸ hlist)
    obtain ⟨q, hq, hframe⟩ := exists_frame_of_link h hm
    obtain ⟨_, _, d, hd, _, hplace⟩ :=
      exists_of_forall₂_mem ((Outline.ofFiles_nests files hm).placed kind) hi
    refine ⟨d, q, hd, hq, ?_⟩
    rw [show q.file = m.file from congrArg Message.file hframe,
      show q.fullName = m.fullName from congrArg Message.fullName hframe]
    exact hplace

theorem place_of_message {m : Message} (h : s.messages[i]? = some m) :
    (s.listing .message).places[i]? = some m.place := by
  rw [Schema.listing, Schema.messageListing, List.getElem?_map, h, Option.map_some]

theorem mem_places_iff {d : Place} :
    d ∈ s.places ↔ ∃ (kind : Kind) (i : Nat), (s.listing kind).places[i]? = some d := by
  rw [Schema.places, List.mem_append, List.mem_iff_getElem?, List.mem_iff_getElem?]
  constructor
  · rintro (⟨i, hi⟩ | ⟨i, hi⟩)
    · exact ⟨.message, i, hi⟩
    · exact ⟨.enum, i, hi⟩
  · rintro ⟨_ | _, i, hi⟩
    · exact .inl ⟨i, hi⟩
    · exact .inr ⟨i, hi⟩

theorem parent_lt_of_link (h : link files = .ok s) {p : Nat} {m : Message}
    (hm : s.messages[i]? = some m) (hp : m.parent = some p) : p < i := by
  have hright := listing_right h .message
  obtain ⟨q, hq, _⟩ := hright.parent_exists (place_of_message hm) hp
  obtain ⟨o, ho, hframe, hnests⟩ := nests_of_link h hq
  have hlist : (s.listing .message).nested[p]? = some q.messages := by
    rw [Schema.listing, Schema.messageListing, List.getElem?_map, hq, Option.map_some]
  have hmem := (hright.exact.nested_iff (place_of_message hm) hlist).mpr hp
  have hmessages : o.messages = q.messages := congrArg Message.messages hframe
  exact hnests.later i (hmessages ▸ hmem)

end Linking

/-! ### Walking outwards -/

namespace Schema
variable {s : Schema}

theorem enclosingUpTo_none (bound : Nat) : s.enclosingUpTo bound none = [] := by
  cases bound <;> rfl

/-- Where messages come after their parents, a bound above the first message is never met. -/
theorem enclosingUpTo_eq
    (hlt : ∀ {i p : Nat} {m : Message}, s.messages[i]? = some m → m.parent = some p → p < i)
    {p a b : Nat} (ha : p < a) (hb : p < b) :
    s.enclosingUpTo a (some p) = s.enclosingUpTo b (some p) := by
  induction p using Nat.strong_induction_on generalizing a b with
  | _ p ih =>
    obtain ⟨a, rfl⟩ := Nat.exists_eq_add_one_of_ne_zero (Nat.ne_zero_of_lt ha)
    obtain ⟨b, rfl⟩ := Nat.exists_eq_add_one_of_ne_zero (Nat.ne_zero_of_lt hb)
    rw [enclosingUpTo, enclosingUpTo]
    cases hm : s.messages[p]? with
    | none => rfl
    | some m =>
      cases hparent : m.parent with
      | none => simp only [hparent, enclosingUpTo_none]
      | some q =>
        have hq := hlt hm hparent
        simp only [hparent]
        rw [ih q hq (b := b) (by omega) (by omega)]

theorem enclosing_some
    (hlt : ∀ {i p : Nat} {m : Message}, s.messages[i]? = some m → m.parent = some p → p < i)
    {p : Nat} {q : Message} (hq : s.messages[p]? = some q) :
    s.enclosing (some p) = s.enclosing q.parent ++ [q.name] := by
  have hp : p < s.messages.length := (List.getElem?_eq_some_iff.mp hq).1
  obtain ⟨n, hn⟩ := Nat.exists_eq_add_one_of_ne_zero (Nat.ne_zero_of_lt hp)
  rw [enclosing, enclosing, hn, enclosingUpTo, hq]
  cases hparent : q.parent with
  | none => simp only [hparent, enclosingUpTo_none]
  | some r =>
    have hr := hlt hq hparent
    simp only [hparent]
    rw [enclosingUpTo_eq hlt (b := n + 1) (by omega) (by omega)]

end Schema

/-! ### Full names -/

namespace Linking
variable {files : List LoadedFile} {s : Schema} {i : Nat}

/-- A definition is named as it should be if its parent is. -/
theorem named_of_parent (h : link files = .ok s) {l : Listing} (hl : l.Right s) {d : Place}
    (hd : l.places[i]? = some d)
    (hparent : ∀ {p : Nat} {q : Message}, d.parent = some p → s.messages[p]? = some q →
      s.Named q.place) : s.Named d := by
  cases hp : d.parent with
  | none =>
    obtain ⟨f, hf, hname⟩ := hl.top_named hd hp
    refine ⟨f, hf, ?_⟩
    rw [hname, hp, Schema.enclosing, Schema.enclosingUpTo_none, List.append_nil]
  | some p =>
    obtain ⟨q, hq, hfile, hname⟩ := hl.parent_exists hd hp
    obtain ⟨f, hf, hqname⟩ := hparent hp hq
    refine ⟨f, hfile ▸ hf, ?_⟩
    rw [hname, show q.fullName = _ from hqname, hp, Schema.enclosing_some (parent_lt_of_link h) hq,
      ← List.append_assoc]
    rfl

theorem message_named (h : link files = .ok s) {m : Message} (hm : s.messages[i]? = some m) :
    s.Named m.place := by
  induction i using Nat.strong_induction_on generalizing m with
  | _ i ih =>
    exact named_of_parent h (listing_right h .message) (place_of_message hm) fun hp hq =>
      ih _ (parent_lt_of_link h hm hp) hq

theorem named_of_mem_places (h : link files = .ok s) {d : Place} (hd : d ∈ s.places) :
    s.Named d := by
  obtain ⟨kind, i, hi⟩ := mem_places_iff.mp hd
  exact named_of_parent h (listing_right h kind) hi fun _ hq => message_named h hq

theorem parent_of_mem_places (h : link files = .ok s) {d : Place} (hd : d ∈ s.places) {p : Nat}
    (hp : d.parent = some p) : ∃ q, s.messages[p]? = some q ∧ q.file = d.file := by
  obtain ⟨kind, i, hi⟩ := mem_places_iff.mp hd
  obtain ⟨q, hq, hfile, _⟩ := (listing_right h kind).parent_exists hi hp
  exact ⟨q, hq, hfile⟩

/-! ### Numbers in range -/

/-- The type of a linked field is scalar, or that of a declared definition. -/
theorem type_declared (h : link files = .ok s) {m : Message} (hm : m ∈ s.messages) {f : Field}
    (hf : f ∈ m.fields) :
    (∃ type, f.type = .scalar type) ∨
      ∃ name d file, typeOf d = some f.type ∧ Declares files name d file := by
  obtain ⟨i, hi⟩ := List.mem_iff_getElem?.mp hm
  obtain ⟨o, ho, _⟩ := exists_outline_of_link h hi
  obtain ⟨m', hm', hfields⟩ := fields_of_link h ho
  cases hi.symm.trans hm'
  obtain ⟨d, _, linked, hlinked, rfl⟩ := exists_of_forall₂_mem hfields.flip hf
  rw [boxField_type]
  rcases exists_entry_of_type (eq_of_field hlinked).1 with hscalar | ⟨entry, hentry, htype⟩
  · exact .inl hscalar
  · have hmem := (Registry.mem_of_enter hentry).resolve_left List.not_mem_nil
    exact .inr ⟨entry.name, entry.definition, entry.file, htype, entry, hmem, rfl, rfl, rfl⟩

theorem typeOf_inj {d d' : Definition} {type : FieldType} (h : typeOf d = some type)
    (h' : typeOf d' = some type) : d = d' := by
  cases d <;> cases h <;> cases d' <;> cases h' <;> rfl

/-- The type of a field is that of a definition that is there. -/
theorem type_lt (h : link files = .ok s) {m : Message} (hm : m ∈ s.messages) {f : Field}
    (hf : f ∈ m.fields) (kind : Kind) {index : Nat}
    (hindex : typeOf (kind.definition index) = some f.type) :
    index < (s.listing kind).places.length := by
  rcases type_declared h hm hf with ⟨type, hscalar⟩ | ⟨name, d, file, htype, hdeclares⟩
  · rw [hscalar] at hindex
    cases kind <;> simp [Kind.definition, typeOf] at hindex
  · obtain rfl := typeOf_inj htype hindex
    obtain ⟨d, hd, _⟩ := (declares_iff kind).mp hdeclares
    rw [places_of_link h]
    exact (List.getElem?_eq_some_iff.mp hd).1

theorem message_type_lt (h : link files = .ok s) {m : Message} (hm : m ∈ s.messages) {f : Field}
    (hf : f ∈ m.fields) {index : Nat} (hindex : f.type = .message index) :
    index < s.messages.length := by
  have hlt := type_lt h hm hf .message (congrArg some hindex.symm)
  rwa [Schema.listing, Schema.messageListing, List.length_map] at hlt

theorem enum_type_lt (h : link files = .ok s) {m : Message} (hm : m ∈ s.messages) {f : Field}
    (hf : f ∈ m.fields) {index : Nat} (hindex : f.type = .enum index) :
    index < s.enums.length := by
  have hlt := type_lt h hm hf .enum (congrArg some hindex.symm)
  rwa [Schema.listing, Schema.enumListing, List.length_map] at hlt

theorem inRange_of_link (h : link files = .ok s) : s.InRange where
  messages index hindex := by
    have honce := (listing_right h .message).once
    rw [Schema.listing, Schema.messageListing, List.length_map] at honce
    rw [Schema.messageNumbers, List.mem_append, List.mem_append, List.flatMap_def,
      List.flatMap_def, honce.mem_iff, List.mem_range] at hindex
    rcases hindex with (hlisted | hparent) | htype
    · exact hlisted
    · obtain ⟨d, hd, hp⟩ := List.mem_filterMap.mp hparent
      obtain ⟨q, hq, _⟩ := parent_of_mem_places h hd hp
      exact (List.getElem?_eq_some_iff.mp hq).1
    · obtain ⟨f, hf, hindex⟩ := List.mem_filterMap.mp htype
      obtain ⟨m, hm, hfm⟩ := List.mem_flatMap.mp hf
      split at hindex
      · cases hindex
        exact message_type_lt h hm hfm (by assumption)
      · cases hindex
  enums index hindex := by
    have honce := (listing_right h .enum).once
    rw [Schema.listing, Schema.enumListing, List.length_map] at honce
    rw [Schema.enumNumbers, List.mem_append, List.flatMap_def,
      List.flatMap_def, honce.mem_iff, List.mem_range] at hindex
    rcases hindex with hlisted | htype
    · exact hlisted
    · obtain ⟨f, hf, hindex⟩ := List.mem_filterMap.mp htype
      obtain ⟨m, hm, hfm⟩ := List.mem_flatMap.mp hf
      split at hindex
      · cases hindex
        exact enum_type_lt h hm hfm (by assumption)
      · cases hindex
  files index hindex := by
    obtain ⟨d, hd, rfl⟩ := List.mem_map.mp hindex
    obtain ⟨f, hf, _⟩ := named_of_mem_places h hd
    exact (List.getElem?_eq_some_iff.mp hf).1

/-! ### The tree -/

theorem showsEnum_of_enumAt (h : link files = .ok s) {site : Outline.Site} {d : Decl.Enum}
    (hat : (Outline.ofFiles files).1.EnumAt site i d) : s.ShowsEnum i d := by
  obtain ⟨x, hx, rfl, _⟩ := hat
  obtain ⟨e, he, hvalues⟩ := values_of_link h hx
  obtain ⟨e', he', hframe⟩ := exists_enumFrame_of_link h hx
  cases he.symm.trans he'
  refine ⟨e, he, congrArg Enum.name hframe, ?_⟩
  rw [← List.forall₂_eq_eq_eq, List.forall₂_map_left_iff, List.forall₂_map_right_iff]
  exact hvalues.flip.imp fun _ _ hname => hname.1

mutual

theorem shows_of_messageAt (h : link files = .ok s) : ∀ (d : Decl.Message) {site : Outline.Site}
    {i : Nat}, (Outline.ofFiles files).1.MessageAt site i d → s.Shows i d
  | ⟨name, fields, messages, enums, reserved, settings, span⟩, site, i, hat => by
    obtain ⟨o, ho, hdecl, _⟩ := hat
    obtain ⟨m, hm, hframe⟩ := exists_frame_of_link h ho
    obtain ⟨m', hm', hfields⟩ := fields_of_link h ho
    cases hm.symm.trans hm'
    have hnests := Outline.ofFiles_nests files ho
    have hmessages : m.messages = o.messages := congrArg Message.messages hframe
    have henums : m.enums = o.enums := congrArg Message.enums hframe
    refine .message hm (hdecl ▸ congrArg Message.name hframe) ?_ ?_ ?_
    · rw [hdecl] at hfields
      rw [← List.forall₂_eq_eq_eq, List.forall₂_map_left_iff, List.forall₂_map_right_iff]
      refine hfields.flip.imp ?_
      rintro _ f ⟨linked, hlinked, rfl⟩
      rw [boxField_name, (eq_of_field hlinked).2.2.1]
    · rw [hmessages]
      have hat := hnests.messages
      rw [hdecl] at hat
      exact shows_of_messagesAt h messages hat
    · rw [henums]
      have hat := hnests.enums
      rw [hdecl] at hat
      exact hat.imp fun _ _ => showsEnum_of_enumAt h

theorem shows_of_messagesAt (h : link files = .ok s) : ∀ (ds : List Decl.Message)
    {site : Outline.Site} {indices : List Nat},
    List.Forall₂ ((Outline.ofFiles files).1.MessageAt site) indices ds →
    List.Forall₂ s.Shows indices ds
  | [], _, _, .nil => .nil
  | d :: ds, _, _, .cons hd hds => .cons (shows_of_messageAt h d hd) (shows_of_messagesAt h ds hds)

end

theorem showsFiles_of_link (h : link files = .ok s) : List.Forall₂ s.ShowsFile files s.files := by
  have hshows : List.Forall₂ s.ShowsFile (files.zipIdx.map (·.1)) s.files := by
    rw [files_of_link h, List.forall₂_map_left_iff]
    refine (Outline.ofFiles_at files).imp fun x entry hat => ?_
    exact ⟨hat.name, hat.package, shows_of_messagesAt h _ hat.messages,
      hat.enums.imp fun _ _ => showsEnum_of_enumAt h⟩
  rwa [List.zipIdx_map_fst] at hshows

/-- **The arena of a linked schema**: every number in it is in range; each definition is listed
once, at the top of its file or inside its parent, which is a message of the same file; a message
comes after its parent, so that the walk outwards ends; full names are the package, the names on
that walk and the own name; and read as a tree the schema has what its files declare, in order. -/
theorem arranged_of_link (h : link files = .ok s) :
    s.InRange ∧ s.Arranged ∧ List.Forall₂ s.ShowsFile files s.files := by
  refine ⟨inRange_of_link h, ?_, showsFiles_of_link h⟩
  exact
    { messages := (listing_right h .message).exact
      enums := (listing_right h .enum).exact
      sameFile := fun d hd p hp => parent_of_mem_places h hd hp
      parent_lt := parent_lt_of_link h
      enclosing := Schema.enclosing_some (parent_lt_of_link h)
      named := fun d hd => named_of_mem_places h hd }

end Linking

/-! ### Stamps inside letters -/

namespace Mail

def ident (value : String) : Decl.Ident :=
  ⟨value, ⟨0, 0⟩⟩

def valueDecl (name : String) (number : UInt64) : Decl.EnumValue :=
  ⟨ident name, ⟨false, number, ⟨0, 0⟩⟩, [], ⟨0, 0⟩⟩

def enumDecl (name : String) (values : List Decl.EnumValue) : Decl.Enum :=
  ⟨ident name, values, [], [], ⟨0, 0⟩⟩

def source (name : String) (package : Option Decl.Package) (imports : List String)
    (messages : List Decl.Message) (enums : List Decl.Enum) : LoadedFile :=
  ⟨⟨name, none, "", ⟨.proto2, package, imports.map fun value => ⟨.plain, value, ⟨0, 0⟩, ⟨0, 0⟩⟩, [],
    messages, enums⟩⟩, true⟩

def package : Decl.Package :=
  ⟨⟨ident "post", []⟩, ⟨0, 0⟩⟩

/-- The kind of a stamp, with a default. -/
def kindField : Decl.Field :=
  ⟨some .optional, Tree.namedType "Kind", ⟨0, 0⟩, ident "kind", ⟨false, 1, ⟨0, 0⟩⟩,
    [⟨"default", ⟨0, 0⟩, .ident "AIR", ⟨0, 0⟩⟩], ⟨0, 0⟩⟩

/-- A stamp has a seal, declared inside it, and the seal has a stamp. -/
def stampDecl : Decl.Message :=
  ⟨ident "Stamp", [kindField, Tree.fieldDecl (some .optional) (Tree.namedType "Seal") "seal" 2],
    [Tree.messageDecl "Seal" [Tree.fieldDecl (some .optional) (Tree.namedType "Stamp") "stamp" 1]],
    [enumDecl "Kind" [valueDecl "SURFACE" 0, valueDecl "AIR" 1]], [], [], ⟨0, 0⟩⟩

def stamp : LoadedFile :=
  source "stamp.proto" (some package) [] [stampDecl] []

/-- A letter has no package. -/
def letter : LoadedFile :=
  source "letter.proto" none ["stamp.proto"]
    [Tree.messageDecl "Letter" [Tree.fieldDecl (some .repeated)
      (.named ⟨none, ⟨ident "post", [ident "Stamp"]⟩⟩) "stamps" 1]] []

def rate : LoadedFile :=
  source "rate.proto" (some package) [] [] [enumDecl "Rate" [valueDecl "FLAT" 0]]

def files : List LoadedFile :=
  [stamp, letter, rate]

def schema : Schema :=
  { files :=
      [⟨"stamp.proto", some ["post"], .proto2, [0], [], true⟩,
        ⟨"letter.proto", none, .proto2, [2], [], true⟩,
        ⟨"rate.proto", some ["post"], .proto2, [], [1], true⟩]
    messages :=
      [⟨"Stamp", ["post", "Stamp"], 0, none,
          [⟨"kind", 1, .optional, .enum 0, false, some (.enumValue 1), false⟩,
            ⟨"seal", 2, .optional, .message 1, false, none, true⟩], [1], [0]⟩,
        ⟨"Seal", ["post", "Stamp", "Seal"], 0, some 0,
          [⟨"stamp", 1, .optional, .message 0, false, none, true⟩], [], []⟩,
        ⟨"Letter", ["Letter"], 1, none,
          [⟨"stamps", 1, .repeated, .message 0, false, none, false⟩], [], []⟩]
    enums :=
      [⟨"Kind", ["post", "Stamp", "Kind"], 0, some 0, [⟨"SURFACE", 0⟩, ⟨"AIR", 1⟩]⟩,
        ⟨"Rate", ["post", "Rate"], 2, none, [⟨"FLAT", 0⟩]⟩] }

theorem link_files : Linking.link files = .ok schema := rfl

end Mail

namespace Linking

/-- The seal is listed inside the stamp and nowhere else, and the walk from it ends. -/
theorem arranged_of_link_mail :
    link Mail.files = .ok Mail.schema ∧ Mail.schema.InRange ∧ Mail.schema.messageListing.Exact ∧
      Mail.schema.enclosing (some 1) = ["Stamp", "Seal"] ∧
      List.Forall₂ Mail.schema.ShowsFile Mail.files Mail.schema.files := by
  obtain ⟨hrange, harranged, hshows⟩ := arranged_of_link Mail.link_files
  exact ⟨Mail.link_files, hrange, harranged.messages, rfl, hshows⟩

end Linking

end Protobuf
