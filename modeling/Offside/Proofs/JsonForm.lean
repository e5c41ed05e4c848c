import Offside.Embedding
import Offside.Proofs.JsonText
import Offside.Proofs.LineDiagnostics
import Offside.Proofs.TagForm

/-!
# JSON forms are read back

A record is written with the fields that it has and read by asking for each field by its key. The
two fit together for any record (`Json.fields?_sparse`): the fields that were left out are found
missing, and the others are found as they were written, since no two have the same key. Options,
tags and diagnostics are records of this kind, so what is left for each of them is how a missing
field is understood.

The texts that a host is given are such forms too (`Embedding.forms_read_back`). Two facts about the
program come in there. The attributes of a tag that was read have different keys
(`Tag.nodup_keys_read`), and no remark on a source has a number beyond its lines
(`Renderer.line_le_of_mem_diagnostics`).
-/

namespace Offside

namespace Json

/-- A form that can be taken for the value it was made from: written and read it gives the value,
and the value gives the same text again. -/
structure ReadsBack {α : Type} (form : α → Json) (read? : Json → Option α) (a : α) : Prop where
  value : (parse? (form a).write).bind read? = some a
  text : ((parse? (form a).write).bind read?).map (fun b => (form b).write) = some (form a).write

theorem ReadsBack.of_legible {α : Type} {form : α → Json} {read? : Json → Option α} {a : α}
    (hlegible : (form a).IsLegible) (hread : read? (form a) = some a) :
    ReadsBack form read? a := by
  have hvalue : (parse? (form a).write).bind read? = some a := by
    rw [parse?_write hlegible, Option.bind_some, hread]
  exact ⟨hvalue, by rw [hvalue, Option.map_some]⟩

/-! ### Values of one kind -/

/-- What is read from each of some forms is read from all of them. -/
theorem mapM_map_eq_some {α β γ : Type} {form : α → β} {read? : β → Option γ} {g : α → γ}
    {xs : List α} (h : ∀ x ∈ xs, read? (form x) = some (g x)) :
    (xs.map form).mapM read? = some (xs.map g) := by
  induction xs with
  | nil => rfl
  | cons x xs ih =>
    obtain ⟨hx, hxs⟩ := List.forall_mem_cons.mp h
    rw [List.map_cons, List.mapM_cons, hx, ih hxs]
    rfl

theorem isLegible_ofText (t : Text) : (ofText t).IsLegible :=
  List.forall_mem_singleton.mpr trivial

theorem isLegible_bool (b : Bool) : (Json.bool b).IsLegible :=
  List.forall_mem_singleton.mpr trivial

theorem isLegible_ofNat (n : Nat) : (ofNat n).IsLegible :=
  List.forall_mem_singleton.mpr (Number.isNumeral_ofNat n)

theorem isLegible_texts (ts : List Text) : (Json.array (ts.map ofText)).IsLegible := by
  refine isLegible_array.mpr ?_
  intro item hitem
  obtain ⟨t, -, rfl⟩ := List.mem_map.mp hitem
  exact isLegible_ofText t

theorem texts?_array (ts : List Text) : (Json.array (ts.map ofText)).texts? = some ts := by
  have hread : (ts.map ofText).mapM text? = some (ts.map id) := mapM_map_eq_some fun _ _ => rfl
  rw [texts?, hread, List.map_id]

/-- A field that is left out when it has the default is read as it was. -/
theorem withDefault_ite {α : Type} [DecidableEq α] {default a : α} {read? : Json → Option α}
    {value : Json} (h : read? value = some a) :
    withDefault default read? (if a = default then none else some value) = some a := by
  split
  · rename_i hdefault
    rw [withDefault, hdefault]
  · exact h

/-- A field that is left out when it is absent is read as it was; only null would be absent too. -/
theorem optional_map {α : Type} {form : α → Json} {read? : Json → Option α} {field : Option α}
    (hnull : ∀ a, form a ≠ .null) (hread : ∀ a ∈ field, read? (form a) = some a) :
    optional read? (field.map form) = some field := by
  cases field with
  | none => rfl
  | some a =>
    rw [Option.map_some, optional, hread a rfl, Option.map_some]
    exact hnull a

/-! ### Records -/

/-- The record of the fields that have a value. -/
def sparse (fields : List (String × Option Json)) : Json :=
  record (fields.filterMap fun field => field.2.map fun value => (field.1, value))

/-- The members of such a record. -/
def sparseMembers (fields : List (String × Option Json)) : List (Text × Json) :=
  fields.filterMap fun field => field.2.map fun value => (field.1.toList, value)

theorem isLegible_sparse {fields : List (String × Option Json)}
    (h : ∀ value, some value ∈ fields.map Prod.snd → value.IsLegible) :
    (sparse fields).IsLegible := by
  refine isLegible_object.mpr ?_
  intro member hmember
  obtain ⟨named, hnamed, rfl⟩ := List.mem_map.mp hmember
  obtain ⟨field, hfield, hnamed⟩ := List.mem_filterMap.mp hnamed
  obtain ⟨value, hvalue, rfl⟩ := Option.map_eq_some_iff.mp hnamed
  exact h value (List.mem_map.mpr ⟨field, hfield, hvalue⟩)

theorem members?_sparse (fields : List (String × Option Json)) :
    (sparse fields).members? = some (sparseMembers fields) := by
  have hmembers : sparseMembers fields =
      (fields.filterMap fun field => field.2.map fun value => (field.1, value)).map
        fun member => (member.1.toList, member.2) := by
    rw [sparseMembers, List.map_filterMap]
    simp only [Option.map_map, Function.comp_def]
  rw [hmembers]
  exact mapM_map_eq_some fun _ _ => rfl

/-- Among members whose keys all differ, those with the key of a field are the field. -/
theorem filter_sparseMembers {fields : List (String × Option Json)}
    (hkeys : (fields.map Prod.fst).Nodup) {field : String × Option Json} (hfield : field ∈ fields) :
    (sparseMembers fields).filter (·.1 = field.1.toList) =
      field.2.toList.map fun value => (field.1.toList, value) := by
  induction fields with
  | nil => exact absurd hfield List.not_mem_nil
  | cons first fields ih =>
    obtain ⟨hfirst, hkeys⟩ := List.nodup_cons.mp hkeys
    have hsplit : sparseMembers (first :: fields) =
        (first.2.toList.map fun value => (first.1.toList, value)) ++ sparseMembers fields := by
      cases hvalue : first.2 <;> simp [sparseMembers, hvalue]
    rw [hsplit, List.filter_append]
    rcases List.mem_cons.mp hfield with rfl | hlater
    · -- The key is not among the later ones.
      have hlast : (sparseMembers fields).filter (·.1 = field.1.toList) = [] := by
        refine List.filter_eq_nil_iff.mpr ?_
        intro member hmember hkey
        obtain ⟨other, hother, hvalue⟩ := List.mem_filterMap.mp hmember
        obtain ⟨value, -, rfl⟩ := Option.map_eq_some_iff.mp hvalue
        have hsame : other.1 = field.1 := String.toList_inj.mp (of_decide_eq_true hkey)
        exact hfirst (hsame ▸ List.mem_map_of_mem hother)
      rw [hlast, List.append_nil]
      refine List.filter_eq_self.mpr ?_
      intro member hmember
      obtain ⟨value, -, rfl⟩ := List.mem_map.mp hmember
      exact decide_eq_true rfl
    · have hne : first.1 ≠ field.1 :=
        fun hsame => hfirst (hsame ▸ List.mem_map_of_mem hlater)
      have hnone : (first.2.toList.map fun value => (first.1.toList, value)).filter
          (·.1 = field.1.toList) = [] := by
        refine List.filter_eq_nil_iff.mpr ?_
        intro member hmember hkey
        obtain ⟨value, -, rfl⟩ := List.mem_map.mp hmember
        exact hne (String.toList_inj.mp (of_decide_eq_true hkey))
      rw [hnone, List.nil_append, ih hkeys hlater]

/-- **A record is read field by field as it was written,** if its keys are all different. -/
theorem fields?_sparse {fields : List (String × Option Json)} (hkeys : (fields.map Prod.fst).Nodup)
    (partially : Bool) :
    (sparse fields).fields? (fields.map fun field => field.1.toList) partially =
      some (fields.map Prod.snd) := by
  show objectFields? _ (sparse fields) = _
  unfold objectFields?
  rw [members?_sparse]
  refine mapM_map_eq_some ?_
  intro field hfield
  rw [once?, filter_sparseMembers hkeys hfield]
  cases field.2 <;> rfl

end Json

/-! ### Options -/

namespace Options

theorem toJson_eq_sparse (o : Options) :
    o.toJson = .sparse [("formatOutput", some (.bool o.formatOutput)),
      ("selfClosingMode", some (.ofText o.voidStyle.name)),
      ("indentUnit", some (.ofNat o.indentUnit))] :=
  rfl

theorem ofJson?_toJson {o : Options} (hunit : o.indentUnit < Text.wordLimit) :
    ofJson? o.toJson = some o := by
  have hfields : o.toJson.fields? keys true = some [some (.bool o.formatOutput),
      some (.ofText o.voidStyle.name), some (.ofNat o.indentUnit)] := by
    rw [toJson_eq_sparse]
    exact Json.fields?_sparse (by simp) true
  have hstyle : Json.choice? Json.isNull VoidStyle.ofName? (.ofText o.voidStyle.name) =
      some o.voidStyle := VoidStyle.ofName?_name _
  have hword : Json.word? (.ofNat o.indentUnit) = some o.indentUnit :=
    Json.Number.word?_ofNat hunit
  rw [ofJson?, hfields]
  simp [ofFields?, Json.withDefault, Json.bool?, hstyle, hword]

theorem isLegible_toJson (o : Options) : o.toJson.IsLegible := by
  rw [toJson_eq_sparse]
  refine Json.isLegible_sparse ?_
  intro value hvalue
  simp only [List.map_cons, List.map_nil, List.mem_cons, Option.some.injEq, List.not_mem_nil,
    or_false] at hvalue
  rcases hvalue with rfl | rfl | rfl
  · exact Json.isLegible_bool _
  · exact Json.isLegible_ofText _
  · exact Json.isLegible_ofNat _

end Options

/-! ### Tags -/

namespace Attributes

theorem ofJson?_toJson {a : Attributes} (hkeys : a.keys.Nodup) : ofJson? a.toJson = some a := by
  have hmembers : a.toJson.members? =
      some (a.entries.map fun entry => (entry.1, Json.ofText entry.2)) :=
    Json.mapM_map_eq_some fun _ _ => rfl
  have htexts : a.toJson.textMembers? = some a.entries := by
    rw [Json.textMembers?, hmembers, Option.bind_eq_bind, Option.bind_some]
    refine (Json.mapM_map_eq_some (g := id) ?_).trans (congrArg some (List.map_id _))
    exact fun _ _ => rfl
  rw [ofJson?, htexts, Option.map_some, ofList_of_nodup hkeys]

theorem isLegible_toJson (a : Attributes) : a.toJson.IsLegible := by
  refine Json.isLegible_object.mpr ?_
  intro member hmember
  obtain ⟨entry, -, rfl⟩ := List.mem_map.mp hmember
  exact Json.isLegible_ofText _

end Attributes

namespace Tag

theorem toJson_eq_sparse (tag : Tag) :
    tag.toJson = .sparse [("tag_name", some (.ofText tag.name)), ("id", tag.id.map .ofText),
      ("classes", if tag.classes = [] then none else some (.array (tag.classes.map .ofText))),
      ("attributes", if tag.attributes = {} then none else some tag.attributes.toJson),
      ("inline_content", tag.content.map .ofText),
      ("is_self_closing", some (.bool tag.isVoid))] := by
  obtain ⟨name, id, classes, ⟨entries⟩, content, isVoid⟩ := tag
  have hempty : (Attributes.mk entries = {}) = (entries = []) := by simp
  simp only [toJson, Json.sparse, hempty]
  cases id <;> cases content <;> cases classes <;> cases entries <;> rfl

theorem fields?_toJson (tag : Tag) :
    tag.toJson.fields? keys false = some [some (.ofText tag.name), tag.id.map .ofText,
      if tag.classes = [] then none else some (.array (tag.classes.map .ofText)),
      if tag.attributes = {} then none else some tag.attributes.toJson,
      tag.content.map .ofText, some (.bool tag.isVoid)] := by
  rw [toJson_eq_sparse]
  exact Json.fields?_sparse (by simp) false

theorem ofJson?_toJson {tag : Tag} (hkeys : tag.attributes.keys.Nodup) :
    ofJson? tag.toJson = some tag := by
  have htext : ∀ field : Option Text,
      Json.optional Json.text? (field.map .ofText) = some field :=
    fun field => Json.optional_map (fun _ => Json.noConfusion) fun _ _ => rfl
  have hname : Json.required Json.text? (some (.ofText tag.name)) = some tag.name := rfl
  have hvoid : Json.required Json.bool? (some (.bool tag.isVoid)) = some tag.isVoid := rfl
  -- What was left out is the default of its field: no classes, no attributes, no text.
  rw [ofJson?, fields?_toJson, Option.bind_eq_bind, Option.bind_some, ofFields?, hname, htext,
    htext, hvoid, Json.withDefault_ite (Json.texts?_array _),
    Json.withDefault_ite (Attributes.ofJson?_toJson hkeys)]
  rfl

theorem isLegible_toJson (tag : Tag) : tag.toJson.IsLegible := by
  rw [toJson_eq_sparse]
  refine Json.isLegible_sparse ?_
  intro value hvalue
  simp only [List.map_cons, List.map_nil, List.mem_cons, Option.some.injEq, List.not_mem_nil,
    or_false, eq_comm (a := some value), Option.map_eq_some_iff, ite_eq_iff, reduceCtorEq,
    and_false, false_or] at hvalue
  rcases hvalue with rfl | ⟨t, -, rfl⟩ | ⟨-, rfl⟩ | ⟨-, rfl⟩ | ⟨t, -, rfl⟩ | rfl
  · exact Json.isLegible_ofText _
  · exact Json.isLegible_ofText _
  · exact Json.isLegible_texts _
  · exact Attributes.isLegible_toJson _
  · exact Json.isLegible_ofText _
  · exact Json.isLegible_bool _

end Tag

/-! ### Diagnostics -/

namespace Diagnostic

theorem toJson_eq_sparse (d : Diagnostic) :
    d.toJson = .sparse [("severity", some (.ofText d.severity.name)),
      ("message", some (.ofText d.message)), ("line", d.line.map .ofNat),
      ("code", d.code.map .ofText)] := by
  obtain ⟨severity, message, line, code⟩ := d
  cases line <;> cases code <;> rfl

theorem ofJson?_toJson {d : Diagnostic} (hline : ∀ n ∈ d.line, n < Text.wordLimit) :
    ofJson? d.toJson = some d := by
  have hfields : d.toJson.fields? keys false = some [some (.ofText d.severity.name),
      some (.ofText d.message), d.line.map .ofNat, d.code.map .ofText] := by
    rw [toJson_eq_sparse]
    exact Json.fields?_sparse (by simp) false
  have hseverity : Json.required (Json.choice? Json.isNull Severity.ofName?)
      (some (.ofText d.severity.name)) = some d.severity := Severity.ofName?_name _
  have hmessage : Json.required Json.text? (some (.ofText d.message)) = some d.message := rfl
  have hword : Json.optional Json.word? (d.line.map .ofNat) = some d.line :=
    Json.optional_map (fun _ => Json.noConfusion) fun n hn => Json.Number.word?_ofNat (hline n hn)
  have hcode : Json.optional Json.text? (d.code.map .ofText) = some d.code :=
    Json.optional_map (fun _ => Json.noConfusion) fun _ _ => rfl
  rw [ofJson?, hfields, Option.bind_eq_bind, Option.bind_some, ofFields?, hseverity, hmessage,
    hword, hcode]
  rfl

theorem isLegible_toJson (d : Diagnostic) : d.toJson.IsLegible := by
  rw [toJson_eq_sparse]
  refine Json.isLegible_sparse ?_
  intro value hvalue
  simp only [List.map_cons, List.map_nil, List.mem_cons, Option.some.injEq, List.not_mem_nil,
    or_false, eq_comm (a := some value), Option.map_eq_some_iff] at hvalue
  rcases hvalue with rfl | rfl | ⟨n, -, rfl⟩ | ⟨t, -, rfl⟩
  · exact Json.isLegible_ofText _
  · exact Json.isLegible_ofText _
  · exact Json.isLegible_ofNat _
  · exact Json.isLegible_ofText _

end Diagnostic

/-- No remark on a source has a number beyond its lines. -/
theorem Renderer.line_le_of_mem_diagnostics {r : Renderer} {source : Text} {rendered : Rendered}
    (h : r.render source = .ok rendered) {d : Diagnostic} (hd : d ∈ rendered.diagnostics) :
    ∀ n ∈ d.line, n ≤ (Text.lines source).length := by
  rw [(render_eq_ok_iff.mp h).2, diagnostics_eq] at hd
  obtain ⟨⟨line, number⟩, hline, hd⟩ := List.mem_flatMap.mp hd
  obtain ⟨remark, -, rfl⟩ := List.mem_map.mp hd
  intro n hn
  obtain rfl : number = n := Option.some.inj hn
  have hlt := List.snd_lt_of_mem_zipIdx hline
  omega

/-! ### The texts for a host -/

namespace Embedding

/-- **JSON forms are read back.** Options, tags and diagnostics are read from their texts as they
were, and written again with the same texts. So the tag of a line is read from the text that a host
is given, and the diagnostics of a source are read one by one from the array that it is given.

Numbers are those that a word holds, which is what the forms have room for: the width of a level,
the number of a line. Keys of attributes are all different in a tag that was read. -/
theorem forms_read_back :
    (∀ o : Options, o.indentUnit < Text.wordLimit →
      Json.ReadsBack Options.toJson Options.ofJson? o) ∧
    (∀ tag : Tag, tag.attributes.keys.Nodup → Json.ReadsBack Tag.toJson Tag.ofJson? tag) ∧
    (∀ d : Diagnostic, (∀ n ∈ d.line, n < Text.wordLimit) →
      Json.ReadsBack Diagnostic.toJson Diagnostic.ofJson? d) ∧
    (∀ line, (Json.parse? (tagJson line)).bind Tag.ofJson? = some (Tag.read .html line).tag) ∧
    (∀ source rendered, (Text.lines source).length < Text.wordLimit →
      Renderer.render {} source = .ok rendered →
        ∃ text items, diagnosticsJson source = .ok text ∧
          Json.parse? text = some (.array items) ∧
          items.mapM Diagnostic.ofJson? = some rendered.diagnostics) := by
  have htag : ∀ tag : Tag, tag.attributes.keys.Nodup →
      Json.ReadsBack Tag.toJson Tag.ofJson? tag :=
    fun tag hkeys => .of_legible tag.isLegible_toJson (Tag.ofJson?_toJson hkeys)
  refine ⟨?_, htag, ?_, ?_, ?_⟩
  · exact fun o hunit => .of_legible o.isLegible_toJson (Options.ofJson?_toJson hunit)
  · exact fun d hline => .of_legible d.isLegible_toJson (Diagnostic.ofJson?_toJson hline)
  · exact fun line => (htag _ (Tag.nodup_keys_read .html line)).value
  · intro source rendered hlines hrender
    refine ⟨(Json.array (rendered.diagnostics.map Diagnostic.toJson)).write,
      rendered.diagnostics.map Diagnostic.toJson, ?_, ?_, ?_⟩
    · rw [diagnosticsJson, hrender]
    · refine Json.parse?_write (Json.isLegible_array.mpr ?_)
      intro item hitem
      obtain ⟨d, -, rfl⟩ := List.mem_map.mp hitem
      exact d.isLegible_toJson
    · refine (Json.mapM_map_eq_some (g := id) ?_).trans (congrArg some (List.map_id _))
      intro d hd
      refine Diagnostic.ofJson?_toJson fun n hn => ?_
      exact Nat.lt_of_le_of_lt (Renderer.line_le_of_mem_diagnostics hrender hd n hn) hlines

/-- The greatest word, characters that are escaped in each of the three ways, an absent and an empty
field, and a source with two remarks. -/
theorem forms_read_back_escapes :
    Json.ReadsBack Options.toJson Options.ofJson? ⟨false, .html5, 18446744073709551615⟩ ∧
    Json.ReadsBack Tag.toJson Tag.ofJson?
      ⟨"\"\n\x01\u00e9".toList, none, [], ⟨[(['b'], []), (['a'], ['\\'])]⟩, some [], true⟩ ∧
    Json.ReadsBack Diagnostic.toJson Diagnostic.ofJson?
      ⟨.info, ['\x7f'], some 18446744073709551615, none⟩ ∧
    ∃ text items, diagnosticsJson "%br\x7bx\x7d z".toList = .ok text ∧
      Json.parse? text = some (.array items) ∧
      items.mapM Diagnostic.ofJson? = some
        [.ofIssue 1 (.bareEntry "x".toList), .ofIssue 1 (.contentOnVoid "z".toList)] := by
  obtain ⟨hoptions, htag, hdiagnostic, -, hsource⟩ := forms_read_back
  have hrender : Renderer.render {} "%br\x7bx\x7d z".toList = .ok ⟨"<br />".toList,
      [.ofIssue 1 (.bareEntry "x".toList), .ofIssue 1 (.contentOnVoid "z".toList)]⟩ := by
    cbv
  refine ⟨hoptions _ (by decide), htag _ (by decide), hdiagnostic _ ?_,
    hsource _ _ (by decide) hrender⟩
  intro n hn
  obtain rfl := Option.some.inj hn
  decide

end Embedding

end Offside
