import Offside.Diagnostic
import Offside.Json.Record
import Offside.Json.Reader
import Offside.Json.Writer
import Offside.Options

/-!
# JSON forms

Options, tags and diagnostics have a form in JSON. Writing leaves out what is absent or empty;
reading takes what is left out for absent, empty or, for options, the default.
-/

namespace Offside

/-- A member that is left out when its value is absent. -/
def Json.optionalMember (key : String) (form : α → Json) (value : Option α) : List (String × Json) :=
  value.toList.map fun value => (key, form value)

/-! ### Options -/

namespace Options

/-- The JSON form of options. -/
def toJson (o : Options) : Json :=
  .record [("formatOutput", .bool o.formatOutput), ("selfClosingMode", .ofText o.voidStyle.name),
    ("indentUnit", .ofNat o.indentUnit)]

/-- The keys of the form, in order. -/
def keys : List Text :=
  ["formatOutput".toList, "selfClosingMode".toList, "indentUnit".toList]

/-- Options from their fields, the default taking the place of one that is missing. -/
def ofFields? (isNothing : Json → Bool) : List (Option Json) → Option Options
  | [formatOutput, voidStyle, indentUnit] => do
    let default : Options := {}
    return {
      formatOutput := ← Json.withDefault default.formatOutput Json.bool? formatOutput
      voidStyle := ← Json.withDefault default.voidStyle
        (Json.choice? isNothing VoidStyle.ofName?) voidStyle
      indentUnit := ← Json.withDefault default.indentUnit Json.word? indentUnit }
  | _ => none

/-- Options from their JSON form. -/
def ofJson? (value : Json) : Option Options := do
  ofFields? Json.isNull (← value.fields? keys true)

end Options

/-! ### Tags -/

namespace Attributes

/-- The JSON form of attributes: an object with their keys in order. -/
def toJson (a : Attributes) : Json :=
  .object (a.entries.map fun (key, value) => (some key, .ofText value))

/-- Attributes from their JSON form. -/
def ofJson? (value : Json) : Option Attributes :=
  value.textMembers?.map ofList

end Attributes

namespace Tag

/-- The JSON form of a tag. -/
def toJson (tag : Tag) : Json :=
  .record
    ([("tag_name", Json.ofText tag.name)] ++ Json.optionalMember "id" .ofText tag.id ++
      (if tag.classes = [] then [] else [("classes", .array (tag.classes.map .ofText))]) ++
      (if tag.attributes.entries = [] then [] else [("attributes", tag.attributes.toJson)]) ++
      Json.optionalMember "inline_content" .ofText tag.content ++
      [("is_self_closing", .bool tag.isVoid)])

/-- The keys of the form, in order. -/
def keys : List Text :=
  ["tag_name".toList, "id".toList, "classes".toList, "attributes".toList,
    "inline_content".toList, "is_self_closing".toList]

/-- A tag from its fields. -/
def ofFields? : List (Option Json) → Option Tag
  | [name, id, classes, attributes, content, isVoid] => do
    return {
      name := ← Json.required Json.text? name
      id := ← Json.optional Json.text? id
      classes := ← Json.withDefault [] Json.texts? classes
      attributes := ← Json.withDefault {} Attributes.ofJson? attributes
      content := ← Json.optional Json.text? content
      isVoid := ← Json.required Json.bool? isVoid }
  | _ => none

/-- A tag from its JSON form. -/
def ofJson? (value : Json) : Option Tag := do
  ofFields? (← value.fields? keys false)

end Tag

/-! ### Diagnostics -/

namespace Diagnostic

/-- The JSON form of a diagnostic. -/
def toJson (d : Diagnostic) : Json :=
  .record
    ([("severity", Json.ofText d.severity.name), ("message", .ofText d.message)] ++
      Json.optionalMember "line" .ofNat d.line ++ Json.optionalMember "code" .ofText d.code)

/-- The keys of the form, in order. -/
def keys : List Text :=
  ["severity".toList, "message".toList, "line".toList, "code".toList]

/-- A diagnostic from its fields. -/
def ofFields? : List (Option Json) → Option Diagnostic
  | [severity, message, line, code] => do
    return {
      severity := ← Json.required (Json.choice? Json.isNull Severity.ofName?) severity
      message := ← Json.required Json.text? message
      line := ← Json.optional Json.word? line
      code := ← Json.optional Json.text? code }
  | _ => none

/-- A diagnostic from its JSON form. -/
def ofJson? (value : Json) : Option Diagnostic := do
  ofFields? (← value.fields? keys false)

end Diagnostic

end Offside
