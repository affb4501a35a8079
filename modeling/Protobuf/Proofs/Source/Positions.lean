import Protobuf.Proofs.Source.Placing

/-! The positions in parsed declarations.

The ranges that a tree records are those of the text: at the range of a name stands the name, the
parts of a declaration lie in its range, one after another, and so do the declarations of a list
(`positions_faithful`). -/
namespace Protobuf

/-! ### Faithful declarations -/

namespace Decl

/-- The text has the identifier at its range. -/
def Ident.Spelled (text : String) (i : Ident) : Prop :=
  i.span.text text = i.value

def Setting.spans (s : Setting) : List Span :=
  [s.nameSpan, s.valueSpan]

def TypeRef.spans (r : TypeRef) : List Span :=
  r.leadingDot.toList ++ r.name.parts.map Ident.span

def TypeExpr.spans : TypeExpr → List Span
  | scalar _ => []
  | named type => type.spans

/-- The parts of the type's name. -/
def TypeExpr.idents : TypeExpr → List Ident
  | scalar _ => []
  | named type => type.name.parts

def RangeEnd.spans : RangeEnd → List Span
  | single | max => []
  | upTo last => [last.span]

def ReservedRange.spans (r : ReservedRange) : List Span :=
  r.first.span :: r.stop.spans

def ReservedItems.spans : ReservedItems → List Span
  | ranges list => list.flatMap ReservedRange.spans
  | names list => list.map Ident.span

def Import.Faithful (i : Import) : Prop :=
  i.span.Encloses [i.valueSpan]

def Reserved.Faithful (r : Reserved) : Prop :=
  r.span.Encloses r.items.spans

structure Package.Faithful (text : String) (p : Package) : Prop where
  names : ∀ i ∈ p.name.parts, i.Spelled text
  parts : p.span.Encloses (p.name.parts.map Ident.span)

structure Field.Faithful (text : String) (f : Field) : Prop where
  name : f.name.Spelled text
  typeNames : ∀ i ∈ f.type.idents, i.Spelled text
  typeParts : f.typeSpan.Encloses f.type.spans
  parts : f.span.Encloses
    (f.typeSpan :: f.name.span :: f.number.span :: f.settings.flatMap Setting.spans)

structure EnumValue.Faithful (text : String) (v : EnumValue) : Prop where
  name : v.name.Spelled text
  parts : v.span.Encloses (v.name.span :: v.number.span :: v.settings.flatMap Setting.spans)

/-- Inside this range, each kind of part follows the name of the enum in order. -/
structure Enum.Faithful (text : String) (whole : Span) (e : Enum) : Prop where
  name : e.name.Spelled text
  valueParts : whole.Encloses (e.name.span :: e.values.map EnumValue.span)
  reservedParts : whole.Encloses (e.name.span :: e.reserved.map Reserved.span)
  settingParts : whole.Encloses (e.name.span :: e.settings.flatMap Setting.spans)
  values : ∀ v ∈ e.values, v.Faithful text
  reserved : ∀ r ∈ e.reserved, r.Faithful

theorem Enum.Faithful.mono {text : String} {pos here stop : Nat} {e : Enum}
    (h : e.Faithful text ⟨pos, here⟩) (hle : here ≤ stop) : e.Faithful text ⟨pos, stop⟩ where
  name := h.name
  valueParts := h.valueParts.mono_right hle
  reservedParts := h.reservedParts.mono_right hle
  settingParts := h.settingParts.mono_right hle
  values := h.values
  reserved := h.reserved

/-- Inside this range, each kind of part follows the name of the message in order. Of nested
messages only the ranges are meant. -/
structure Message.Arranged (text : String) (whole : Span) (m : Message) : Prop where
  name : m.name.Spelled text
  fieldParts : whole.Encloses (m.name.span :: m.fields.map Field.span)
  messageParts : whole.Encloses (m.name.span :: m.messages.map Message.span)
  enumParts : whole.Encloses (m.name.span :: m.enums.map Enum.span)
  reservedParts : whole.Encloses (m.name.span :: m.reserved.map Reserved.span)
  settingParts : whole.Encloses (m.name.span :: m.settings.flatMap Setting.spans)
  fields : ∀ f ∈ m.fields, f.Faithful text
  enums : ∀ e ∈ m.enums, e.Faithful text e.span
  reserved : ∀ r ∈ m.reserved, r.Faithful

theorem Message.Arranged.mono {text : String} {pos here stop : Nat} {m : Message}
    (h : m.Arranged text ⟨pos, here⟩) (hle : here ≤ stop) : m.Arranged text ⟨pos, stop⟩ where
  name := h.name
  fieldParts := h.fieldParts.mono_right hle
  messageParts := h.messageParts.mono_right hle
  enumParts := h.enumParts.mono_right hle
  reservedParts := h.reservedParts.mono_right hle
  settingParts := h.settingParts.mono_right hle
  fields := h.fields
  enums := h.enums
  reserved := h.reserved

/-- A message and, inside their own ranges, all messages nested in it are in order. -/
inductive Message.Faithful (text : String) : Span → Message → Prop where
  | message {whole : Span} {m : Message} (hown : m.Arranged text whole)
    (hmessages : ∀ inner ∈ m.messages, Message.Faithful text inner.span inner) :
    Message.Faithful text whole m

/-- Inside this range, each kind of part of the file is in order. -/
structure File.Faithful (text : String) (whole : Span) (f : File) : Prop where
  packageParts : whole.Encloses (f.package.toList.map Package.span)
  importParts : whole.Encloses (f.imports.map Import.span)
  messageParts : whole.Encloses (f.messages.map Message.span)
  enumParts : whole.Encloses (f.enums.map Enum.span)
  settingParts : whole.Encloses (f.settings.flatMap Setting.spans)
  package : ∀ p ∈ f.package, p.Faithful text
  imports : ∀ i ∈ f.imports, i.Faithful
  messages : ∀ m ∈ f.messages, m.Faithful text m.span
  enums : ∀ e ∈ f.enums, e.Faithful text e.span

theorem File.Faithful.mono {text : String} {pos here stop : Nat} {f : File}
    (h : f.Faithful text ⟨pos, here⟩) (hle : here ≤ stop) : f.Faithful text ⟨pos, stop⟩ where
  packageParts := h.packageParts.mono_right hle
  importParts := h.importParts.mono_right hle
  messageParts := h.messageParts.mono_right hle
  enumParts := h.enumParts.mono_right hle
  settingParts := h.settingParts.mono_right hle
  package := h.package
  imports := h.imports
  messages := h.messages
  enums := h.enums

end Decl

namespace Grammar
open Decl Protobuf.Span Protobuf.Parser

variable {text : String}

/-- What was read has its range between the two positions, and is faithful. -/
structure FoundAt {α : Type} (span : α → Span) (faithful : α → Prop) (pos stop : Nat) (a : α) :
    Prop where
  place : Ascending pos stop [span a]
  faithful : faithful a

/-! ### Names and literals -/

theorem places_ident : Places text (FoundAt Ident.span (Ident.Spelled text)) ident := by
  refine .peek fun w => ?_
  split
  · exact (places_advance _).andPure fun _ _ _ h => ⟨h.1, h.2 _ rfl⟩
  · exact places_unexpected _

/-- The parts of the name are spelled and in order. -/
def DottedAt (text : String) (pos stop : Nat) (d : Dotted) : Prop :=
  Ascending pos stop (d.parts.map Ident.span) ∧ ∀ i ∈ d.parts, i.Spelled text

theorem dottedAt_first {pos stop : Nat} {first : Ident} (hspan : Ascending pos stop [first.span])
    (hspelled : first.Spelled text) : DottedAt text pos stop ⟨first, []⟩ :=
  ⟨hspan, List.forall_mem_singleton.mpr hspelled⟩

theorem DottedAt.concat {pos here stop : Nat} {d : Dotted} {part : Ident}
    (h : DottedAt text pos here d)
    (hpart : FoundAt Ident.span (Ident.Spelled text) here stop part) :
    DottedAt text pos stop ⟨d.first, d.others ++ [part]⟩ := by
  refine ⟨?_, forall_mem_concat h.2 hpart.faithful⟩
  show Ascending pos stop ([] ++ (d.parts ++ [part]).map Ident.span)
  exact Ascending.concat_map [] h.1 hpart.place

theorem places_dottedFrom (pos : Nat) (first : Ident) :
    Places text (fun here stop d => DottedAt text pos here ⟨first, []⟩ → DottedAt text pos stop d)
      (dottedFrom first) := by
  refine places_loop (I := DottedAt text pos)
    (fun d => .seq (orderly_accept _) fun taken => ?_) ⟨first, []⟩
  split
  · exact places_ident.andPure fun _ _ _ hpart hd => hd.concat hpart
  · exact places_pure fun _ hd => hd

theorem places_dotted : Places text (DottedAt text) dotted :=
  places_ident.bind fun first pos => (places_dottedFrom pos first).imp
    fun _ _ _ h hfirst => h (dottedAt_first hfirst.place hfirst.faithful)

theorem places_typeRef :
    Places text (fun pos stop r => Ascending pos stop r.spans ∧ ∀ i ∈ r.name.parts, i.Spelled text)
      typeRef := by
  refine .peek fun w => ?_
  split
  · exact (places_advance _).bind fun _ _ => places_dotted.andPure
      fun _ _ _ hname hdot => ⟨hdot.1.append hname.1, hname.2⟩
  · exact places_dotted.andPure fun _ _ _ hname => hname
  · exact places_unexpected _

theorem places_string :
    Places text (fun pos stop result => Ascending pos stop [result.2]) string := by
  refine .peek fun w => ?_
  split
  · refine (places_advance _).bind fun _ _ => ?_
    split
    · exact places_pure fun _ h => h.1
    · exact .report (places_pure fun _ h => h.1)
  · exact places_unexpected _

theorem places_positiveInt :
    Places text (fun pos stop n => Ascending pos stop [n.span]) positiveInt := by
  refine .peek fun w => ?_
  split
  · exact (places_advance _).andPure fun _ _ _ h => h.1
  · exact places_unexpected _

theorem places_intAfter (pos : Nat) (minus : Option Span) :
    Places text (fun here stop n => Ascending pos here minus.toList → Ascending pos stop [n.span])
      (intAfter minus) := by
  refine .peek fun w => ?_
  split
  · refine (places_advance _).andPure fun here stop _ h hminus => ?_
    cases minus with
    | none => exact h.1.mono_left hminus
    | some start => exact Ascending.join_single hminus h.1
  · exact places_unexpected _

theorem places_int : Places text (fun pos stop n => Ascending pos stop [n.span]) int := by
  refine .peek fun w => ?_
  split
  · exact (places_advance _).bind fun _ pos =>
      (places_intAfter pos _).imp fun _ _ _ h hminus => h hminus.1
  · exact .from_here (fun pos => places_intAfter pos none) fun pos => Nat.le_refl pos

/-! ### Options -/

theorem places_signedNumber (negative : Bool) :
    Places text (fun pos stop result => Ascending pos stop [result.2]) (signedNumber negative) := by
  refine .peek fun w => ?_
  split
  · exact (places_advance _).andPure fun _ _ _ h => h.1
  · exact (places_advance _).andPure fun _ _ _ h => h.1
  · exact (places_advance _).andPure fun _ _ _ h => h.1
  · exact (places_advance _).andPure fun _ _ _ h => h.1
  · exact places_unexpected _

theorem DottedAt.span {pos stop : Nat} {d : Dotted} (h : DottedAt text pos stop d) :
    Ascending pos stop [d.span] ∧ d.span.Encloses (d.parts.map Ident.span) := by
  have hlast : (d.others.map Ident.span).getLastD d.first.span =
      (d.others.getLastD d.first).span := by
    simp [List.getLastD_eq_getLast?, List.getLast?_map, Option.getD_map]
  have hparts : Ascending pos stop (d.first.span :: d.others.map Ident.span) := h.1
  have hwhole := hparts.join_getLastD
  rwa [hlast] at hwhole

theorem places_constant :
    Places text (fun pos stop result => Ascending pos stop [result.2]) constant := by
  refine .peek fun w => ?_
  split
  · exact places_dotted.andPure fun _ _ _ h => h.span.1
  · exact (places_advance _).bind fun _ _ => (places_signedNumber _).andPure
      fun _ _ _ h hsign => Ascending.join_single hsign.1 h
  · exact (places_advance _).bind fun _ _ => (places_signedNumber _).andPure
      fun _ _ _ h hsign => Ascending.join_single hsign.1 h
  · exact places_signedNumber false
  · exact places_signedNumber false
  · exact (places_advance _).andPure fun _ _ _ h => h.1
  · exact places_unexpected _

theorem places_settingPart :
    Places text (fun pos stop part => Ascending pos stop [part.2]) settingPart := by
  refine .peek fun w => ?_
  split
  · refine (places_advance _).bind fun _ pos => .seq orderly_typeRef fun type => ?_
    exact (places_expect _).andPure fun _ _ _ hstop hstart => Ascending.join_single hstart.1 hstop
  · exact (places_advance _).andPure fun _ _ _ h => h.1
  · exact places_unexpected _

theorem places_settingNameFrom (pos : Nat) (first : String × Span) :
    Places text (fun here stop name => Ascending pos here [first.2] → Ascending pos stop [name.2])
      (settingNameFrom first) := by
  refine places_loop (I := fun here name => Ascending pos here [name.2])
    (fun name => .peek fun w => ?_) first
  split
  · exact .advance fun _ => places_settingPart.andPure
      fun _ _ _ hpart hname => Ascending.join_single hname hpart
  · exact .advance fun _ => places_pure fun _ h => h
  · exact places_unexpected _

theorem places_settingName :
    Places text (fun pos stop name => Ascending pos stop [name.2]) settingName :=
  places_settingPart.bind fun first pos => places_settingNameFrom pos first

theorem places_setting :
    Places text (fun pos stop s => Ascending pos stop s.spans) setting :=
  places_settingName.bind fun _ _ => places_constant.andPure
    fun _ _ _ hvalue hname => hname.append hvalue

theorem places_settingStatement :
    Places text (fun pos stop s => Ascending pos stop s.spans) settingStatement :=
  .seq (orderly_keyword _) fun _ => places_setting.bind fun _ _ =>
    .seq (orderly_sign _) fun _ => places_pure fun _ h => h

theorem places_settingListFrom (pos : Nat) (first : Setting) :
    Places text (fun here stop list => Ascending pos here ([first].flatMap Setting.spans) →
      Ascending pos stop (list.flatMap Setting.spans)) (settingListFrom first) := by
  refine places_loop (I := fun here list => Ascending pos here (list.flatMap Setting.spans))
    (fun list => .peek fun w => ?_) [first]
  split
  · exact .advance fun _ => places_setting.andPure
      fun _ _ _ hs hlist => Ascending.concat_flatMap [] hlist hs
  · exact .advance fun _ => places_pure fun _ h => h
  · exact places_unexpected _

theorem places_settingList :
    Places text (fun pos stop list => Ascending pos stop (list.flatMap Setting.spans))
      settingList :=
  .seq (orderly_sign _) fun _ => places_setting.bind fun s pos =>
    (places_settingListFrom pos s).imp fun _ _ _ h hs =>
      h (by rwa [List.flatMap_singleton])

/-! ### Reserved numbers and names -/

theorem places_rangeLast :
    Places text (fun pos stop last => Ascending pos stop last.spans) rangeLast := by
  refine .peek fun w => ?_
  split
  · exact (places_advance _).andPure fun _ _ _ h => h.1.start_le
  · exact places_int.andPure fun _ _ _ h => h

theorem places_reservedRange :
    Places text (fun pos stop r => Ascending pos stop r.spans) reservedRange := by
  refine places_int.bind fun first pos => .peek fun w => ?_
  split
  · exact .advance fun _ => places_rangeLast.andPure
      fun _ _ _ hlast hfirst => hfirst.append hlast
  · exact places_pure fun _ h => h
  · exact places_pure fun _ h => h
  · exact places_unexpected _

theorem places_commaList {α : Type} {spans : α → List Span} {item : Parser α}
    (h : Places text (fun pos stop a => Ascending pos stop (spans a)) item) :
    Places text (fun pos stop list => Ascending pos stop (list.flatMap spans))
      (commaList item) := by
  have hloop : ∀ pos, Places text (fun here stop list => Ascending pos here ([].flatMap spans) →
      Ascending pos stop (list.flatMap spans)) (commaList item) := by
    intro pos
    refine places_loop (I := fun here list => Ascending pos here (list.flatMap spans))
      (fun list => h.bind fun a here => .seq (orderly_accept _) fun more => ?_) []
    split
    · exact places_pure fun _ ha hlist => Ascending.concat_flatMap [] hlist ha
    · exact places_pure fun _ ha hlist => Ascending.concat_flatMap [] hlist ha
  exact .from_here hloop fun pos => Nat.le_refl pos

theorem places_reservedName :
    Places text (fun pos stop i => Ascending pos stop [i.span]) reservedName :=
  places_string.andPure fun _ _ _ h => h

theorem places_reservedItems :
    Places text (fun pos stop items => Ascending pos stop items.spans) reservedItems := by
  refine .peek fun w => ?_
  split
  · exact (places_commaList places_reservedRange).andPure fun _ _ _ h => h
  · exact (places_commaList places_reservedRange).andPure fun _ _ _ h => h
  · refine (places_commaList places_reservedName).andPure fun pos stop list h => ?_
    show Ascending pos stop (list.map Ident.span)
    rwa [← List.flatMap_pure_eq_map]
  · exact places_unexpected _

theorem places_reserved : Places text (FoundAt Reserved.span Reserved.Faithful) reserved := by
  refine (places_expect _).bind fun start _ => places_reservedItems.bind fun items _ => ?_
  refine (places_expect _).andPure fun _ _ _ hstop hitems hstart => ?_
  obtain ⟨hwhole, hinside⟩ := Ascending.join hstart.first (hitems.append hstop)
  exact ⟨hwhole, hinside⟩

/-! ### Enums -/

theorem places_enumValueSettings :
    Places text (fun pos stop list => Ascending pos stop (list.flatMap Setting.spans))
      enumValueSettings := by
  refine .peek fun w => ?_
  split
  · exact places_pure fun pos => Nat.le_refl pos
  · exact places_settingList
  · exact places_unexpected _

theorem places_enumValue :
    Places text (FoundAt EnumValue.span (EnumValue.Faithful text)) enumValue := by
  refine places_ident.bind fun name pos => .seq (orderly_sign _) fun _ => ?_
  refine places_int.bind fun number _ => places_enumValueSettings.bind fun settings _ => ?_
  refine (places_expect _).andPure fun _ stop last hstop hsettings hnumber hname => ?_
  have hparts : Ascending pos stop
      ((name.span :: number.span :: settings.flatMap Setting.spans) ++ [last]) :=
    (hname.place.append hnumber).append (hsettings.append hstop)
  have hfrom : Ascending name.span.start stop
      ((name.span :: number.span :: settings.flatMap Setting.spans) ++ [last]) :=
    hparts.from_first
  obtain ⟨hwhole, hinside⟩ := Ascending.join ⟨hparts.1, Nat.le_refl _⟩ hfrom
  exact ⟨hwhole, hname.faithful, hinside⟩

theorem places_enumBody (start : Span) (name : Ident) :
    Places text (fun here stop (e : Decl.Enum) =>
      Decl.Enum.Faithful text ⟨start.start, here⟩ ⟨name, [], [], [], start⟩ →
        e.Faithful text e.span ∧ e.span.start = start.start ∧ e.span.stop ≤ stop)
      (enumBody start name) := by
  refine places_loop (I := fun here (e : Decl.Enum) => e.Faithful text ⟨start.start, here⟩)
    (fun e => .peek fun w => ?_) ⟨name, [], [], [], start⟩
  split
  · refine places_settingStatement.andPure fun here stop s hs he => ?_
    exact { he.mono hs.start_le with
      settingParts := Ascending.concat_flatMap [_] he.settingParts hs }
  · refine places_reserved.andPure fun here stop r hr he => ?_
    exact { he.mono hr.place.start_le with
      reservedParts := Ascending.concat_map [_] he.reservedParts hr.place
      reserved := forall_mem_concat he.reserved hr.faithful }
  · exact .advance fun _ => places_pure fun _ he => he
  · refine places_enumValue.andPure fun here stop v hv he => ?_
    exact { he.mono hv.place.start_le with
      valueParts := Ascending.concat_map [_] he.valueParts hv.place
      values := forall_mem_concat he.values hv.faithful }
  · refine (places_advance _).andPure fun here stop _ hbrace he => ⟨?_, rfl, hbrace.1.2.2⟩
    exact { he.mono (Nat.le_trans hbrace.1.1 (Nat.le_of_lt hbrace.1.2.1)) with }
  · exact places_unexpected _

theorem places_enum :
    Places text (FoundAt Decl.Enum.span fun e => e.Faithful text e.span) enum := by
  refine (places_expect _).bind fun start pos => places_ident.bind fun name _ => ?_
  refine .seq (orderly_sign _) fun _ => (places_enumBody start name).imp ?_
  intro here stop e hbody hname hstart
  have hfirst : Encloses ⟨start.start, here⟩ [name.span] := hname.place.mono_left hstart.first.2
  obtain ⟨hfaithful, hfrom, hto⟩ := hbody ⟨hname.faithful, hfirst, hfirst, hfirst, nofun, nofun⟩
  exact ⟨hstart.extend hfrom hto hfaithful.valueParts, hfaithful⟩

/-! ### Messages -/

/-- The type is written at this range. -/
structure TypeAt (text : String) (pos stop : Nat) (type : TypeExpr × Span) : Prop where
  span : Ascending pos stop [type.2]
  parts : type.2.Encloses type.1.spans
  names : ∀ i ∈ type.1.idents, i.Spelled text

theorem DottedAt.type {pos stop : Nat} {d : Dotted} (h : DottedAt text pos stop d) :
    TypeAt text pos stop (.named ⟨none, d⟩, d.span) :=
  ⟨h.span.1, h.span.2, h.2⟩

theorem places_typeAfterMap (pos : Nat) (span : Span) :
    Places text (fun here stop type => Ascending pos here [span] → span.text text = "map" →
      TypeAt text pos stop type) (typeAfterMap span) := by
  refine .peek fun w => ?_
  split
  · exact .report places_fail
  · refine (places_dottedFrom pos ⟨"map", span⟩).andPure fun _ _ d hd hspan hspelled => ?_
    exact (hd (dottedAt_first hspan hspelled)).type

theorem places_typeRef_type :
    Places text (TypeAt text) (typeRef >>= fun type => pure (.named type, type.span)) := by
  refine places_typeRef.andPure fun pos stop r hr => ?_
  obtain ⟨dot, name⟩ := r
  cases dot with
  | none => exact DottedAt.type hr
  | some dot =>
    obtain ⟨⟨hfirst, hdot, hparts⟩, hnames⟩ := hr
    obtain ⟨hspan, hinside⟩ := DottedAt.span ⟨hparts, hnames⟩
    -- The type's range begins at the dot, so the name's own range no longer bounds its parts.
    have hfront : Ascending pos dot.stop [dot] := ⟨hfirst, hdot, Nat.le_refl _⟩
    have hbehind : Ascending dot.stop name.span.stop (name.parts.map Ident.span) :=
      hinside.mono_left hspan.1
    exact ⟨hfront.join_single hspan, ⟨Nat.le_refl _, hdot, hbehind⟩, hnames⟩

theorem places_fieldType : Places text (TypeAt text) fieldType := by
  refine .peek fun w => ?_
  split
  · exact (places_advance _).bind fun _ pos => (places_typeAfterMap pos _).imp
      fun _ _ _ h hspan => h hspan.1 (hspan.2 _ rfl)
  · split
    · exact (places_advance _).andPure fun _ _ _ h => ⟨h.1, Nat.le_of_lt h.1.2.1, nofun⟩
    · exact places_typeRef_type
  · exact places_typeRef_type
  · exact places_unexpected _

/-- A field starts with its label, or else with its type. -/
theorem places_fieldLabel :
    Places text (fun pos stop result => pos ≤ result.2.start ∧ result.2.start ≤ stop)
      fieldLabel := by
  have hlabel : ∀ {pos here stop : Nat} {w : Word}, Ascending here stop [w.span] ∧ w.Spelled text →
      (∀ v, some w = some v → pos ≤ here ∧ here = v.span.start) →
        pos ≤ w.span.start ∧ w.span.start ≤ stop := by
    intro pos here stop w hword hnext
    obtain ⟨hhere, rfl⟩ := hnext w rfl
    exact ⟨hhere, hword.1.first.2⟩
  -- Without a label the word stays unread: the type begins with it as well.
  have hnone : ∀ {pos here : Nat} {w : Word},
      (∀ v, some w = some v → pos ≤ here ∧ here = v.span.start) →
        pos ≤ w.span.start ∧ w.span.start ≤ here := by
    intro pos here w hnext
    obtain ⟨hhere, rfl⟩ := hnext w rfl
    exact ⟨hhere, Nat.le_refl _⟩
  refine places_peek.bind fun w pos => ?_
  split
  · exact (places_advance _).andPure fun _ _ _ => hlabel
  · exact (places_advance _).andPure fun _ _ _ => hlabel
  · exact (places_advance _).andPure fun _ _ _ => hlabel
  · exact places_pure fun _ => hnone
  · exact places_pure fun _ => hnone
  · exact places_unexpected _

theorem places_fieldEnd (type : TypeExpr) :
    Places text (fun pos stop result =>
      Ascending pos stop (result.1.flatMap Setting.spans ++ [result.2])) (fieldEnd type) := by
  refine .peek fun w => ?_
  split
  · exact places_settingList.bind fun _ _ => (places_expect _).andPure
      fun _ _ _ hstop hsettings => hsettings.append hstop
  · exact (places_advance _).andPure fun _ _ _ h => h.1
  · split
    · exact .report (.seq orderly_skipBlock fun _ => places_fail)
    · exact places_unexpected _
  · exact places_unexpected _

theorem places_fieldAfter (e : Edition) (label : Option FieldLabel) (start : Span) (pos : Nat) :
    Places text (fun here stop f => pos ≤ start.start ∧ start.start ≤ here →
      FoundAt Field.span (Field.Faithful text) pos stop f) (fieldAfter e label start) := by
  refine places_fieldType.bind fun type _ => places_ident.bind fun name _ => ?_
  refine .seq (orderly_sign _) fun _ => places_positiveInt.bind fun number _ => ?_
  refine (places_fieldEnd type.1).bind fun result _ => ?_
  refine .seq (orderly_reportAll fun _ _ => proper_of_mem_fieldFaults) fun _ => places_pure ?_
  intro stop hend hnumber hname htype hstart
  have hparts : Ascending _ stop ((type.2 :: name.span :: number.span ::
      result.1.flatMap Setting.spans) ++ [result.2]) :=
    htype.span.append (hname.place.append (hnumber.append hend))
  obtain ⟨hwhole, hinside⟩ := Ascending.join hstart hparts
  exact ⟨hwhole, hname.faithful, htype.names, htype.parts, hinside⟩

theorem places_field (e : Edition) :
    Places text (FoundAt Field.span (Field.Faithful text)) (field e) :=
  places_fieldLabel.bind fun result pos => places_fieldAfter e result.1 result.2 pos

theorem places_messageBody {e : Edition} {nested : Parser Decl.Message}
    (hnested : Places text (FoundAt Decl.Message.span fun m => m.Faithful text m.span) nested)
    (start : Span) (name : Ident) :
    Places text (fun here stop (m : Decl.Message) =>
      Decl.Message.Faithful text ⟨start.start, here⟩ ⟨name, [], [], [], [], [], start⟩ →
        m.Faithful text m.span ∧ m.span.start = start.start ∧ m.span.stop ≤ stop)
      (messageBody e nested start name) := by
  -- While its body is read, a message reaches up to the last position; the brace closes its range.
  refine places_loop (I := fun here (m : Decl.Message) => m.Faithful text ⟨start.start, here⟩)
    (fun m => .peek fun w => ?_) ⟨name, [], [], [], [], [], start⟩
  have hfield : ∀ {here stop : Nat} {f : Decl.Field},
      FoundAt Field.span (Field.Faithful text) here stop f → m.Faithful text ⟨start.start, here⟩ →
        Decl.Message.Faithful text ⟨start.start, stop⟩ { m with fields := m.fields ++ [f] } := by
    intro here stop f hf hm
    obtain ⟨hown, hmessages⟩ := hm
    exact .message { hown.mono hf.place.start_le with
      fieldParts := Ascending.concat_map [_] hown.fieldParts hf.place
      fields := forall_mem_concat hown.fields hf.faithful } hmessages
  split
  · refine (places_advance _).andPure fun here stop _ hbrace hm => ⟨?_, rfl, hbrace.1.2.2⟩
    obtain ⟨hown, hmessages⟩ := hm
    exact .message
      { hown.mono (Nat.le_trans hbrace.1.1 (Nat.le_of_lt hbrace.1.2.1)) with } hmessages
  · exact .advance fun _ => places_pure fun _ hm => hm
  · refine hnested.andPure fun here stop inner hinner hm => ?_
    obtain ⟨hown, hmessages⟩ := hm
    exact .message { hown.mono hinner.place.start_le with
        messageParts := Ascending.concat_map [_] hown.messageParts hinner.place }
      (forall_mem_concat hmessages hinner.faithful)
  · refine places_enum.andPure fun here stop x hx hm => ?_
    obtain ⟨hown, hmessages⟩ := hm
    exact .message { hown.mono hx.place.start_le with
      enumParts := Ascending.concat_map [_] hown.enumParts hx.place
      enums := forall_mem_concat hown.enums hx.faithful } hmessages
  · refine places_settingStatement.andPure fun here stop s hs hm => ?_
    obtain ⟨hown, hmessages⟩ := hm
    exact .message { hown.mono hs.start_le with
      settingParts := Ascending.concat_flatMap [_] hown.settingParts hs } hmessages
  · refine places_reserved.andPure fun here stop r hr hm => ?_
    obtain ⟨hown, hmessages⟩ := hm
    exact .message { hown.mono hr.place.start_le with
      reservedParts := Ascending.concat_map [_] hown.reservedParts hr.place
      reserved := forall_mem_concat hown.reserved hr.faithful } hmessages
  · exact .report (.seq orderly_skipBlock fun _ => places_pure fun _ hm => hm)
  · exact .report (.seq orderly_skipBlock fun _ => places_pure fun _ hm => hm)
  · exact .report (.seq (orderly_skipTo _) fun _ => .seq (orderly_accept _) fun _ =>
      places_pure fun _ hm => hm)
  · exact (places_field e).andPure fun _ _ _ => hfield
  · exact (places_field e).andPure fun _ _ _ => hfield
  · exact places_unexpected _

theorem places_messageUpTo (e : Edition) (depth : Nat) :
    Places text (FoundAt Decl.Message.span fun m => m.Faithful text m.span)
      (messageUpTo e depth) := by
  induction depth with
  | zero => exact places_impossible _
  | succ depth ih =>
    refine (places_expect _).bind fun start pos => places_ident.bind fun name _ => ?_
    refine .seq (orderly_sign _) fun _ => (places_messageBody ih start name).imp ?_
    intro here stop m hbody hname hstart
    have hfirst : Encloses ⟨start.start, here⟩ [name.span] := hname.place.mono_left hstart.first.2
    obtain ⟨⟨hown, hmessages⟩, hfrom, hto⟩ := hbody (.message
      ⟨hname.faithful, hfirst, hfirst, hfirst, hfirst, hfirst, nofun, nofun, nofun⟩ nofun)
    exact ⟨hstart.extend hfrom hto hown.fieldParts, .message hown hmessages⟩

theorem places_message (e : Edition) :
    Places text (FoundAt Decl.Message.span fun m => m.Faithful text m.span) (message e) :=
  fun c => places_messageUpTo e c.limit c

/-! ### Files -/

theorem places_package :
    Places text (FoundAt Package.span (Package.Faithful text)) package := by
  refine (places_expect _).bind fun start pos => places_dotted.bind fun name _ => ?_
  refine (places_expect _).andPure fun _ _ _ hstop hname hstart => ?_
  obtain ⟨hwhole, hinside⟩ := Ascending.join hstart.first (hname.1.append hstop)
  exact ⟨hwhole, hname.2, hinside⟩

theorem places_importStatement :
    Places text (FoundAt Import.span Import.Faithful) importStatement := by
  refine (places_expect _).bind fun start _ => .seq orderly_importKind fun _ => ?_
  refine places_string.bind fun value _ => (places_expect _).andPure ?_
  intro _ _ _ hstop hvalue hstart
  obtain ⟨hwhole, hinside⟩ := Ascending.join hstart.first (hvalue.append hstop)
  exact ⟨hwhole, hinside⟩

theorem places_addPackage (f : File) (p : Package) (pos : Nat) :
    Places text (fun here stop (g : File) =>
      FoundAt Package.span (Package.Faithful text) pos here p → f.Faithful text ⟨0, pos⟩ →
        g.Faithful text ⟨0, stop⟩) (addPackage f p) := by
  unfold addPackage
  split
  · exact .report (places_pure fun _ hp hf => hf.mono hp.place.start_le)
  · rename_i hnone
    refine places_pure fun stop hp hf => ?_
    have hfront := hf.packageParts
    rw [hnone] at hfront
    exact { hf.mono hp.place.start_le with
      packageParts := Ascending.append hfront hp.place
      package := fun q hq => Option.some.inj hq ▸ hp.faithful }

theorem places_statement (f : File) :
    Places text (fun here stop turn => f.Faithful text ⟨0, here⟩ →
      turn.Holds (File.Faithful text ⟨0, stop⟩) (File.Faithful text ⟨0, stop⟩)) (statement f) := by
  refine .peek fun w => ?_
  split
  · exact places_pure fun _ hf => hf
  · exact .advance fun _ => places_pure fun _ hf => hf
  · refine places_importStatement.andPure fun here stop i hi hf => ?_
    exact { hf.mono hi.place.start_le with
      importParts := Ascending.concat_map [] hf.importParts hi.place
      imports := forall_mem_concat hf.imports hi.faithful }
  · refine places_package.bind fun p pos => ?_
    exact (places_addPackage f p pos).andPure fun _ _ _ hg => hg
  · refine places_settingStatement.andPure fun here stop s hs hf => ?_
    exact { hf.mono hs.start_le with
      settingParts := Ascending.concat_flatMap [] hf.settingParts hs }
  · refine (places_message f.edition).andPure fun here stop m hm hf => ?_
    exact { hf.mono hm.place.start_le with
      messageParts := Ascending.concat_map [] hf.messageParts hm.place
      messages := forall_mem_concat hf.messages hm.faithful }
  · refine places_enum.andPure fun here stop e he hf => ?_
    exact { hf.mono he.place.start_le with
      enumParts := Ascending.concat_map [] hf.enumParts he.place
      enums := forall_mem_concat hf.enums he.faithful }
  · exact .seq begins_service.orderly fun _ => places_pure fun _ hf => hf
  · exact .report (.seq orderly_skipBlock fun _ => places_pure fun _ hf => hf)
  · exact places_unexpected _

theorem places_statementOrSkip (f : File) :
    Places text (fun here stop turn => f.Faithful text ⟨0, here⟩ →
      turn.Holds (File.Faithful text ⟨0, stop⟩) (File.Faithful text ⟨0, stop⟩))
      (statementOrSkip f) :=
  (places_statement f).recover (orderly_statement f) (fun _ => rfl)
    (.seq (orderly_skipTo _) fun _ => places_pure fun _ hf => hf)

theorem faithful_empty (level : Edition) (pos : Nat) :
    (File.empty level).Faithful text ⟨0, pos⟩ := by
  have hnone : Encloses ⟨0, pos⟩ [] := Nat.zero_le pos
  exact ⟨hnone, hnone, hnone, hnone, hnone, nofun, nofun, nofun, nofun⟩

theorem places_file :
    Places text (fun _ stop (f : File) => f.Faithful text ⟨0, stop⟩) file := by
  refine .seq orderly_editionOrDefault fun level => ?_
  have hloop := places_loop (I := fun here => File.Faithful text ⟨0, here⟩)
    (fun f => places_statementOrSkip f) (File.empty level)
  exact hloop.imp fun here _ _ h => h (faithful_empty level here)

/-- **Positions are faithful.** At the range of a name the text has that name; the parts of a
declaration lie inside its range and follow one another; and so do the declarations of each list. -/
theorem positions_faithful {name text : String} {f : File} (h : parse name text = .ok f) :
    f.Faithful text ⟨0, text.utf8ByteSize⟩ := by
  obtain ⟨_, c, hrun, _⟩ := file_of_parse h
  obtain ⟨stop, hlaid, hf⟩ := places_file (.start text) 0 f (words_laid text) (by rw [hrun])
  exact hf.mono hlaid.ascending.start_le

/-- A comment with a character of two bytes, and a field without a label. -/
def unitText : String :=
  "syntax = \"proto3\"; package lab.v1; /* \u00b5 */ message Unit \x7b " ++
    ".lab.v1.Unit.Kind kind = 1; enum Kind \x7b NONE = 0; \x7d \x7d"

theorem positions_faithful_unit : ∃ f, parse "unit.proto" unitText = .ok f ∧
    f.messages.map (·.name) = [⟨"Unit", ⟨52, 56⟩⟩] ∧
      f.Faithful unitText ⟨0, unitText.utf8ByteSize⟩ := by
  have hnames : (parse "unit.proto" unitText).toOption.map (·.messages.map (·.name)) =
      some [⟨"Unit", ⟨52, 56⟩⟩] := by
    decide +kernel
  cases hparsed : parse "unit.proto" unitText with
  | error e =>
    rw [hparsed] at hnames
    cases hnames
  | ok f =>
    rw [hparsed] at hnames
    exact ⟨f, rfl, Option.some.inj hnames, positions_faithful hparsed⟩

end Grammar

end Protobuf
