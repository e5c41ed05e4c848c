import Offside.Proofs.JsonForm

/-!
# JSON with its keys in order

A record may be written with the members of every object in the order of their keys. Nothing that
asks for fields by their keys can tell (`Json.objectFields?_sorted`): the members are rearranged,
and a key that stood once still stands once. Attributes are the exception, since their order is part
of what they are. They are read back in the order of their keys, and no two of them become one
(`Tag.ofJson?_sorted`).

Whatever is written takes one line (`Json.staysOnLine_write`). Every character of a written value is
a space or comes after it, since the control characters are escaped.
-/

namespace Offside

namespace Json

/-! ### Members in order -/

theorem sortedItems_eq_map (items : List Json) : sortedItems items = items.map sorted := by
  induction items with
  | nil => rfl
  | cons item items ih => rw [sortedItems, ih, List.map_cons]

theorem sortedMembers_eq_map (members : List (Option Text × Json)) :
    sortedMembers members = members.map fun member => (member.1, member.2.sorted) := by
  induction members with
  | nil => rfl
  | cons member members ih => rw [sortedMembers, ih, List.map_cons]

/-- An object whose keys are texts has its members in the order of these texts. -/
theorem sorted_object {α : Type} (form : α → Json) (members : List (Text × α)) :
    (object (members.map fun member => (some member.1, form member.2))).sorted =
      object ((members.mergeSort fun a b => Text.precedes a.1 b.1).map fun member =>
        (some member.1, (form member.2).sorted)) := by
  -- Only keys are compared, and a value in order has the key that it had.
  have hsort : ((members.map fun member => (some member.1, (form member.2).sorted)).mergeSort
      memberPrecedes) = (members.mergeSort fun a b => Text.precedes a.1 b.1).map fun member =>
        (some member.1, (form member.2).sorted) := by
    refine (List.map_mergeSort ?_).symm
    exact fun _ _ _ _ => rfl
  rw [sorted, sortedMembers_eq_map, List.map_map, ← hsort]
  rfl

theorem isLegible_sorted {v : Json} (h : v.IsLegible) : v.sorted.IsLegible := by
  induction v using induct with
  | null => exact h
  | bool b => exact h
  | number n => exact h
  | string t => exact h
  | array items ih =>
    rw [sorted, sortedItems_eq_map, isLegible_array, List.forall_mem_map]
    exact fun item hitem => ih item hitem (isLegible_array.mp h item hitem)
  | object members ih =>
    rw [sorted, isLegible_object, sortedMembers_eq_map]
    intro member hmember
    obtain ⟨member, hmem, rfl⟩ := List.mem_map.mp ((List.mergeSort_perm _ _).subset hmember)
    exact ih member hmem (isLegible_object.mp h member hmem)

/-! ### Fields -/

theorem eq_map_of_members? {members : List (Option Text × Json)} {named : List (Text × Json)}
    (h : (object members).members? = some named) :
    members = named.map fun member => (some member.1, member.2) := by
  change members.mapM _ = some named at h
  induction members generalizing named with
  | nil => cases h; rfl
  | cons member members ih =>
    rw [List.mapM_cons] at h
    obtain ⟨first, hfirst, h⟩ := Option.bind_eq_some_iff.mp h
    obtain ⟨rest, hrest, h⟩ := Option.bind_eq_some_iff.mp h
    obtain ⟨key, hkey, rfl⟩ := Option.map_eq_some_iff.mp hfirst
    obtain rfl := Option.some.inj h
    rw [List.map_cons, ← ih hrest, ← hkey]

/-- The members of an object in order are its members, rearranged and each in order. -/
theorem members?_sorted {v : Json} {members : List (Text × Json)} (h : v.members? = some members) :
    ∃ members', v.sorted.members? = some members' ∧
      members'.Perm (members.map fun member => (member.1, member.2.sorted)) := by
  cases v with
  | object unread =>
    rw [eq_map_of_members? h]
    have hsorted := sorted_object (fun value => value) members
    rw [hsorted]
    exact ⟨_, mapM_map_eq_some fun _ _ => rfl, (List.mergeSort_perm _ _).map _⟩
  | null => cases h
  | bool b => cases h
  | number n => cases h
  | string t => cases h
  | array items => cases h

/-- A key that stands at most once is found wherever its member stands. -/
theorem once?_of_perm {key : Text} {members members' : List (Text × Json)} {field : Option Json}
    (hperm : members'.Perm members) (h : once? key members = some field) :
    once? key members' = some field := by
  have hfilter := hperm.filter (fun member => member.1 = key)
  unfold once? at h ⊢
  split at h
  · rename_i hnone
    rw [hnone] at hfilter
    rw [hfilter.eq_nil, h]
  · rename_i hone
    rw [hone] at hfilter
    rw [List.perm_singleton.mp hfilter]
    exact h
  · cases h

theorem once?_map_sorted (key : Text) (members : List (Text × Json)) :
    once? key (members.map fun member => (member.1, member.2.sorted)) =
      (once? key members).map (Option.map sorted) := by
  have hfilter : (members.map fun member => (member.1, member.2.sorted)).filter (·.1 = key) =
      (members.filter (·.1 = key)).map fun member => (member.1, member.2.sorted) := List.filter_map
  rw [once?, once?, hfilter]
  cases members.filter (·.1 = key) with
  | nil => rfl
  | cons first rest =>
    cases rest with
    | nil => rfl
    | cons second rest => rfl

/-- **Fields are found in an object whatever the order of its members.** -/
theorem objectFields?_sorted {keys : List Text} {v : Json} {fields : List (Option Json)}
    (h : v.objectFields? keys = some fields) :
    v.sorted.objectFields? keys = some (fields.map (Option.map sorted)) := by
  obtain ⟨members, hmembers, hfields⟩ := Option.bind_eq_some_iff.mp h
  obtain ⟨members', hmembers', hperm⟩ := members?_sorted hmembers
  -- Each key is looked up on its own, among the same members in both orders.
  rw [objectFields?, hmembers', Option.bind_eq_bind, Option.bind_some]
  clear h hmembers hmembers'
  induction keys generalizing fields with
  | nil =>
    obtain rfl := Option.some.inj hfields
    rfl
  | cons key keys ih =>
    rw [List.mapM_cons] at hfields
    obtain ⟨field, hfield, hfields⟩ := Option.bind_eq_some_iff.mp hfields
    obtain ⟨rest, hrest, hfields⟩ := Option.bind_eq_some_iff.mp hfields
    obtain rfl := Option.some.inj hfields
    have hfound : once? key members' = some (field.map sorted) :=
      once?_of_perm hperm (by rw [once?_map_sorted, hfield, Option.map_some])
    rw [List.mapM_cons, hfound, ih hrest]
    rfl

end Json

/-! ### Tags -/

/-- The same attributes in the order of their keys. -/
def Attributes.inOrder (a : Attributes) : Attributes :=
  ⟨a.entries.mergeSort fun x y => Text.precedes x.1 y.1⟩

namespace Attributes

theorem perm_inOrder (a : Attributes) : a.inOrder.entries.Perm a.entries :=
  List.mergeSort_perm _ _

theorem inOrder_eq_empty_iff (a : Attributes) : a.inOrder = {} ↔ a = {} := by
  have hempty : ∀ b : Attributes, b = {} ↔ b.entries = [] := fun ⟨_⟩ => mk.injEq _ _ ▸ Iff.rfl
  rw [hempty, hempty, ← List.length_eq_zero_iff, a.perm_inOrder.length_eq, List.length_eq_zero_iff]

theorem sorted_toJson (a : Attributes) : a.toJson.sorted = a.inOrder.toJson :=
  Json.sorted_object .ofText a.entries

end Attributes

namespace Tag

/-- Fields of a tag, each with its members in order. -/
theorem fields?_sorted (tag : Tag) :
    tag.toJson.sorted.fields? keys false =
      ({ tag with attributes := tag.attributes.inOrder } : Tag).toJson.fields? keys false := by
  have hobject : tag.toJson.objectFields? keys = _ := tag.fields?_toJson
  have hsorted : tag.toJson.sorted.fields? keys false = _ := Json.objectFields?_sorted hobject
  have htexts : ∀ field : Option Text,
      (field.map Json.ofText).map Json.sorted = field.map .ofText :=
    fun field => Option.map_map ..
  have hclasses : (Json.array (tag.classes.map .ofText)).sorted =
      .array (tag.classes.map .ofText) := by
    rw [Json.sorted, Json.sortedItems_eq_map, List.map_map]
    rfl
  -- Of the six fields only the attributes have members.
  rw [hsorted, fields?_toJson]
  simp only [List.map_cons, List.map_nil, Option.map_some, Option.map_none, htexts, hclasses,
    apply_ite (Option.map Json.sorted), Attributes.sorted_toJson, Attributes.inOrder_eq_empty_iff]
  rfl

/-- **A tag is read back from its form with the keys in order,** but for the order of its
attributes. -/
theorem ofJson?_sorted {tag : Tag} (hkeys : tag.attributes.keys.Nodup) :
    ofJson? tag.toJson.sorted = some { tag with attributes := tag.attributes.inOrder } := by
  rw [ofJson?, fields?_sorted]
  refine ofJson?_toJson ?_
  exact (tag.attributes.perm_inOrder.map Prod.fst).nodup_iff.mpr hkeys

end Tag

/-! ### One line -/

/-- A text that stays on its line: none of its characters comes before the space. -/
def Text.StaysOnLine (t : Text) : Prop :=
  ∀ c ∈ t, 0x20 ≤ c.toNat

theorem Text.staysOnLine_of_all {t : Text} (h : t.all (fun c => 0x20 ≤ c.toNat) = true) :
    Text.StaysOnLine t :=
  fun c hc => of_decide_eq_true (List.all_eq_true.mp h c hc)

namespace Json

theorem staysOnLine_writeChar (c : Char) : Text.StaysOnLine (writeChar c) := by
  have hdigit : ∀ n < 16, 0x20 ≤ (Nat.digitChar n).toNat := by decide
  unfold writeChar
  split
  case h_8 =>
    split
    · -- Both digits of the escape stand for numbers below sixteen.
      intro x hx
      simp only [List.mem_cons, List.not_mem_nil, or_false] at hx
      rcases hx with rfl | rfl | rfl | rfl | rfl | rfl
      · decide
      · decide
      · decide
      · decide
      · exact hdigit _ (by omega)
      · exact hdigit _ (by omega)
    · refine List.forall_mem_singleton.mpr ?_
      omega
  all_goals exact List.forall_mem_cons.mpr ⟨by decide, List.forall_mem_singleton.mpr (by decide)⟩

theorem staysOnLine_writeString (t : Option Text) : Text.StaysOnLine (writeString t) := by
  cases t with
  | none => exact Text.staysOnLine_of_all rfl
  | some t =>
    refine List.forall_mem_append.mpr ⟨List.forall_mem_cons.mpr ⟨by decide, ?_⟩,
      List.forall_mem_singleton.mpr (by decide)⟩
    intro c hc
    obtain ⟨d, -, hd⟩ := List.mem_flatMap.mp hc
    exact staysOnLine_writeChar d c hd

theorem staysOnLine_writeNumber {n : Number} (hn : n.IsNumeral) :
    Text.StaysOnLine (writeNumber n) := by
  have hdigits : ∀ {t : Text}, (∀ c ∈ t, c.isDigit = true) → Text.StaysOnLine t := by
    intro t ht c hc
    have hdigit := ht c hc
    simp only [Char.isDigit, Bool.and_eq_true, decide_eq_true_eq] at hdigit
    exact Nat.le_trans (by decide) (UInt32.le_iff_toNat_le.mp hdigit.1)
  have hsign : ∀ negative : Bool, Text.StaysOnLine (if negative then ['-'] else []) :=
    fun negative => Text.staysOnLine_of_all (by revert negative; decide)
  rw [Token.writeNumber_eq]
  refine List.forall_mem_append.mpr ⟨hsign _, List.forall_mem_append.mpr
    ⟨hdigits hn.whole_digits, List.forall_mem_append.mpr ⟨?_, ?_⟩⟩⟩
  · unfold Token.writeFraction
    split
    · exact fun c hc => absurd hc List.not_mem_nil
    · exact List.forall_mem_cons.mpr ⟨by decide, hdigits hn.fraction_digits⟩
  · cases hexponent : n.exponent with
    | none => exact fun c hc => absurd hc List.not_mem_nil
    | some e =>
      exact List.forall_mem_append.mpr ⟨List.forall_mem_cons.mpr ⟨by decide, hsign e.1⟩,
        hdigits (hn.exponent_digits e hexponent).2⟩

theorem staysOnLine_writeItems {items : List Json}
    (h : ∀ item ∈ items, Text.StaysOnLine item.write) : Text.StaysOnLine (writeItems items) := by
  induction items with
  | nil => exact List.forall_mem_singleton.mpr (by decide)
  | cons item items ih =>
    obtain ⟨hitem, hitems⟩ := List.forall_mem_cons.mp h
    cases items with
    | nil =>
      rw [writeItems]
      exact List.forall_mem_append.mpr ⟨hitem, List.forall_mem_singleton.mpr (by decide)⟩
    | cons next items =>
      rw [writeItems]
      · exact List.forall_mem_append.mpr ⟨hitem, List.forall_mem_cons.mpr ⟨by decide, ih hitems⟩⟩
      · exact List.cons_ne_nil _ _

theorem staysOnLine_writeMembers {members : List (Option Text × Json)}
    (h : ∀ member ∈ members, Text.StaysOnLine member.2.write) :
    Text.StaysOnLine (writeMembers members) := by
  induction members with
  | nil => exact List.forall_mem_singleton.mpr (by decide)
  | cons member members ih =>
    obtain ⟨key, value⟩ := member
    obtain ⟨hvalue, hmembers⟩ := List.forall_mem_cons.mp h
    have hmember : Text.StaysOnLine (writeString key ++ ':' :: value.write) :=
      List.forall_mem_append.mpr ⟨staysOnLine_writeString key,
        List.forall_mem_cons.mpr ⟨by decide, hvalue⟩⟩
    cases members with
    | nil =>
      rw [writeMembers]
      exact List.forall_mem_append.mpr ⟨hmember, List.forall_mem_singleton.mpr (by decide)⟩
    | cons next members =>
      rw [writeMembers]
      · exact List.forall_mem_append.mpr ⟨hmember,
          List.forall_mem_cons.mpr ⟨by decide, ih hmembers⟩⟩
      · exact List.cons_ne_nil _ _

/-- **A written value takes one line.** Whatever its texts are made of, what would leave the line is
escaped. -/
theorem staysOnLine_write {v : Json} (h : v.IsLegible) : Text.StaysOnLine v.write := by
  induction v using induct with
  | null => exact Text.staysOnLine_of_all rfl
  | bool b => cases b <;> exact Text.staysOnLine_of_all rfl
  | number n => exact staysOnLine_writeNumber (h (.number n) List.mem_cons_self)
  | string t => exact staysOnLine_writeString t
  | array items ih =>
    refine List.forall_mem_cons.mpr ⟨by decide, staysOnLine_writeItems ?_⟩
    exact fun item hitem => ih item hitem (isLegible_array.mp h item hitem)
  | object members ih =>
    refine List.forall_mem_cons.mpr ⟨by decide, staysOnLine_writeMembers ?_⟩
    exact fun member hmember => ih member hmember (isLegible_object.mp h member hmember)

end Json

end Offside
