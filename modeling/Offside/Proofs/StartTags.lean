import Offside.Proofs.TagText

/-!
# Start tags read back

A start tag is written for readers who know nothing of its author. Such a reader takes the opening
bracket and the name, then one attribute after the other, each a blank, a key, the two characters
`="` and everything up to the next quote, and then the end of the tag, which is `>` or ` />`
(`StartTag.read?`). It takes values as they stand. It does not look into them, and it gives up at
the first character that fits nowhere.

Values are free text, so they could mislead it. One that held a quote would end early, and what came
after the quote would be read as further attributes, or as the end of the tag. This is why quotes
are written as entities, and quotes are all that needs to be: a value without one ends where it
should, whatever else it holds (`StartTag.attribute?_assignment`). Keys are not escaped, so they
must not hold what ends a key (`StartTag.IsKey`). Then the next thing to read is always plain from
the first characters that are left. The blank before a key and the blank before ` />` are told apart
by what comes after the run of key characters.

The round trip is **`StartTag.read?_text_append`**, for start tags of every kind; the induction is
over the attributes, with what follows them left open. **`Tag.read?_fragment`** puts the fragments
of tags into that form. Since every text of the form is read as the tag that it was written from, a
fragment has no second reading.
-/

namespace Offside

/-! ### The reader -/

/-- What can end a start tag. -/
inductive StartTag.Ending where
  /-- The closing bracket. -/
  | bracket
  /-- The closing bracket behind a blank and a slash. -/
  | slashed
  deriving DecidableEq, Repr

/-- A start tag as it stands in markup: its name, its keys with their values as they are written,
and its end. -/
structure StartTag where
  name : Text
  attributes : List (Text × Text)
  ending : StartTag.Ending
  deriving DecidableEq, Repr

namespace StartTag

/-- The characters of an ending. -/
def Ending.text : Ending → Text
  | .bracket => ['>']
  | .slashed => [' ', '/', '>']

/-- The characters that a key may have. -/
def isKeyChar (c : Char) : Bool :=
  !(isBlank c || c = '"' || c = '=' || c = '>')

/-- The attribute that a text starts with, its key and its value as it stands, and what follows
it. -/
def attribute? : Text → Option ((Text × Text) × Text)
  | ' ' :: t =>
    match t.dropWhile isKeyChar with
    | '=' :: '"' :: rest =>
      if t.takeWhile isKeyChar = [] then none
      else (Text.cutAt '"' rest).map fun parts => ((t.takeWhile isKeyChar, parts.1), parts.2)
    | _ => none
  | _ => none

theorem length_attribute? {t rest : Text} {first : Text × Text}
    (h : attribute? t = some (first, rest)) : rest.length < t.length := by
  unfold attribute? at h
  split at h
  · rename_i t
    split at h
    · rename_i value hdrop
      obtain ⟨-, h⟩ := Option.ite_none_left_eq_some.mp h
      obtain ⟨⟨raw, after⟩, hcut, hparts⟩ := Option.map_eq_some_iff.mp h
      obtain ⟨-, rfl⟩ := Prod.mk.inj hparts
      -- The rest comes after the value, which comes after the key.
      have hvalue := congrArg List.length (Text.eq_of_cutAt hcut)
      have hkey := (List.dropWhile_sublist (l := t) isKeyChar).length_le
      rw [hdrop] at hkey
      simp only [List.length_append, List.length_cons] at hvalue hkey ⊢
      omega
    · cases h
  · cases h

/-- The attributes that a text starts with, as many as there are, and what follows them. -/
def takeAttributes (t : Text) : List (Text × Text) × Text :=
  match _h : attribute? t with
  | none => ([], t)
  | some (first, rest) => (first :: (takeAttributes rest).1, (takeAttributes rest).2)
termination_by t.length
decreasing_by all_goals exact length_attribute? _h

/-- The ending that a text starts with, and what follows it. -/
def ending? : Text → Option (Ending × Text)
  | '>' :: rest => some (.bracket, rest)
  | ' ' :: '/' :: '>' :: rest => some (.slashed, rest)
  | _ => none

/-- The start tag that a text starts with, and what follows it. -/
def read? : Text → Option (StartTag × Text)
  | '<' :: t =>
    let name := t.takeWhile Tag.isNameChar
    let read := takeAttributes (t.dropWhile Tag.isNameChar)
    if name = [] then none
    else (ending? read.2).map fun parts => (⟨name, read.1, parts.1⟩, parts.2)
  | _ => none

/-! ### What it reads -/

/-- A key: a non-empty run of key characters. -/
def IsKey (key : Text) : Prop :=
  key ≠ [] ∧ ∀ c ∈ key, isKeyChar c = true

/-- One attribute as it stands in markup, with the blank before it. -/
def assignment (a : Text × Text) : Text :=
  ' ' :: (a.1 ++ '=' :: '"' :: (a.2 ++ ['"']))

/-- The characters of a start tag. -/
def text (s : StartTag) : Text :=
  '<' :: (s.name ++ (s.attributes.flatMap assignment ++ s.ending.text))

/-- The name is a name, the keys are keys, and no value ends before its quote. -/
structure WellFormed (s : StartTag) : Prop where
  name : Tag.IsName s.name
  key : ∀ a ∈ s.attributes, IsKey a.1
  value : ∀ a ∈ s.attributes, '"' ∉ a.2

variable {a : Text × Text}

/-- **One attribute.** A key ends at its `=`, and a value without quotes ends at its quote. -/
theorem attribute?_assignment (hkey : IsKey a.1) (hvalue : '"' ∉ a.2) (rest : Text) :
    attribute? (assignment a ++ rest) = some (a, rest) := by
  have hshape : assignment a ++ rest = ' ' :: (a.1 ++ '=' :: '"' :: (a.2 ++ '"' :: rest)) := by
    simp [assignment]
  have hstop : ∀ c ∈ ('=' :: '"' :: (a.2 ++ '"' :: rest)).head?, isKeyChar c = false :=
    Text.forall_head?_cons (by decide) _
  have hdrop := Text.dropWhile_run hkey.2 hstop
  have htake := Text.takeWhile_run hkey.2 hstop
  rw [hshape, attribute?, hdrop, htake]
  show (if a.1 = [] then none else _) = _
  rw [if_neg hkey.1, Text.cutAt_append hvalue]
  rfl

/-- No attribute begins where a start tag ends. -/
theorem attribute?_ending (e : Ending) (rest : Text) : attribute? (e.text ++ rest) = none := by
  cases e with
  | bracket => rfl
  | slashed =>
    -- The slash could be a key, but no bracket comes after a key.
    have hdrop : ('/' :: '>' :: rest).dropWhile isKeyChar = '>' :: rest :=
      Text.dropWhile_run (a := ['/']) (List.forall_mem_singleton.mpr (by decide))
        (Text.forall_head?_cons (by decide) rest)
    show attribute? (' ' :: '/' :: '>' :: rest) = none
    rw [attribute?, hdrop]
    rfl

theorem ending?_text (e : Ending) (rest : Text) : ending? (e.text ++ rest) = some (e, rest) := by
  cases e <;> rfl

/-- **All attributes.** The reader takes them one after the other and stops at the ending. -/
theorem takeAttributes_flatMap {as : List (Text × Text)} (hkey : ∀ a ∈ as, IsKey a.1)
    (hvalue : ∀ a ∈ as, '"' ∉ a.2) (e : Ending) (rest : Text) :
    takeAttributes (as.flatMap assignment ++ (e.text ++ rest)) = (as, e.text ++ rest) := by
  induction as with
  | nil =>
    rw [List.flatMap_nil, List.nil_append, takeAttributes]
    split
    · rfl
    · rename_i hsome
      rw [attribute?_ending] at hsome
      cases hsome
  | cons a as ih =>
    have hfirst := attribute?_assignment (hkey a List.mem_cons_self)
      (hvalue a List.mem_cons_self) (as.flatMap assignment ++ (e.text ++ rest))
    have hothers := ih (fun b hb => hkey b (List.mem_cons_of_mem a hb))
      fun b hb => hvalue b (List.mem_cons_of_mem a hb)
    rw [List.flatMap_cons, List.append_assoc, takeAttributes]
    split
    · rename_i hnone
      rw [hfirst] at hnone
      cases hnone
    · rename_i first after hsome
      obtain ⟨rfl, rfl⟩ := Prod.mk.inj (Option.some.inj (hfirst.symm.trans hsome))
      rw [hothers]

/-- What comes after the name of a start tag cannot continue it. -/
theorem head?_afterName (as : List (Text × Text)) (e : Ending) (rest : Text) :
    ∀ c ∈ (as.flatMap assignment ++ (e.text ++ rest)).head?, Tag.isNameChar c = false := by
  cases as with
  | nil => cases e <;> exact Text.forall_head?_cons (by decide) _
  | cons a as => exact Text.forall_head?_cons (by decide) _

/-- **A start tag is read as what it was written from,** whatever follows it. -/
theorem read?_text_append {s : StartTag} (h : s.WellFormed) (rest : Text) :
    read? (s.text ++ rest) = some (s, rest) := by
  have hshape : s.text ++ rest =
      '<' :: (s.name ++ (s.attributes.flatMap assignment ++ (s.ending.text ++ rest))) := by
    simp [text]
  have hstop := head?_afterName s.attributes s.ending rest
  rw [hshape, read?, Text.takeWhile_run h.name.2 hstop, Text.dropWhile_run h.name.2 hstop,
    takeAttributes_flatMap h.key h.value]
  dsimp only
  rw [if_neg h.name.1, ending?_text]
  rfl

end StartTag

/-! ### The start tags of fragments -/

namespace Fragment

/-- A value as it is written: every quote is replaced by an entity. -/
def raw (value : Text) : Text :=
  "&quot;".toList.intercalate (List.splitOn '"' value)

theorem intercalate_modifyHead_cons (sep : Text) (c : Char) {pieces : List Text}
    (h : pieces ≠ []) :
    sep.intercalate (pieces.modifyHead (c :: ·)) = c :: sep.intercalate pieces := by
  obtain ⟨first, others, rfl⟩ := List.exists_cons_of_ne_nil h
  cases others with
  | nil => rw [List.modifyHead_cons, List.intercalate_singleton, List.intercalate_singleton]
  | cons second others =>
    rw [List.modifyHead_cons, List.intercalate_cons_cons, List.intercalate_cons_cons]
    rfl

/-- Escaping is cutting at the quotes and joining with the entity. -/
theorem escape_eq_raw (value : Text) : escape value = raw value := by
  unfold raw
  rw [List.splitOn_eq_splitOnP]
  induction value with
  | nil => rfl
  | cons c rest ih =>
    have hpieces : rest.splitOnP (· == '"') ≠ [] := List.splitOnP_ne_nil _ _
    rw [List.splitOnP_cons_eq_if_modifyHead]
    by_cases hc : c = '"'
    · -- A quote leaves an empty piece before the others.
      obtain ⟨first, others, hsplit⟩ := List.exists_cons_of_ne_nil hpieces
      subst hc
      calc escape ('"' :: rest)
          = "&quot;".toList ++ escape rest := rfl
        _ = "&quot;".toList ++ "&quot;".toList.intercalate (first :: others) := by rw [ih, hsplit]
        _ = "&quot;".toList.intercalate ([] :: first :: others) := by
            rw [List.intercalate_cons_cons, List.nil_append]
        _ = _ := by rw [if_pos (beq_self_eq_true _), hsplit]
    · -- Every other character goes to the piece that comes next.
      calc escape (c :: rest)
          = c :: escape rest := by
            show (if c = '"' then "&quot;".toList else [c]) ++ escape rest = _
            rw [if_neg hc, List.singleton_append]
        _ = c :: "&quot;".toList.intercalate (rest.splitOnP (· == '"')) := by rw [ih]
        _ = "&quot;".toList.intercalate ((rest.splitOnP (· == '"')).modifyHead (c :: ·)) :=
            (intercalate_modifyHead_cons _ c hpieces).symm
        _ = _ := by rw [if_neg (by simpa using hc)]

/-- **No value ends its own quotes.** -/
theorem quote_notMem_escape (value : Text) : '"' ∉ escape value := by
  intro hmem
  obtain ⟨c, -, hc⟩ := List.mem_flatMap.mp hmem
  split at hc
  · exact absurd hc (by decide)
  · rename_i hne
    exact hne (List.mem_singleton.mp hc).symm

end Fragment

namespace Tag

/-- How the start tag of a tag ends. -/
def ending (style : VoidStyle) (tag : Tag) : StartTag.Ending :=
  if tag.isVoid = true ∧ style = .xhtml then .slashed else .bracket

/-- What the fragment of a tag has after its start tag. -/
def following (tag : Tag) : Text :=
  if tag.isVoid then [] else tag.content.elim [] (· ++ Fragment.closingTag tag.name)

/-- What the fragment of a tag is. -/
def kind (tag : Tag) : Fragment.Kind :=
  if tag.isVoid then .void else if tag.content.isSome then .inline else .opening

/-- The start tag of a tag. -/
def startTag (style : VoidStyle) (tag : Tag) : StartTag where
  name := tag.name
  attributes := tag.written.map fun e => (e.1, Fragment.raw e.2)
  ending := tag.ending style

variable {tag : Tag}

theorem text_ending (style : VoidStyle) (tag : Tag) :
    (tag.ending style).text = if tag.isVoid then style.terminator else ['>'] := by
  unfold ending
  cases tag.isVoid with
  | false => rfl
  | true => cases style <;> rfl

/-- The written attributes are those of the start tag. -/
theorem flatMap_assignment_startTag (style : VoidStyle) (tag : Tag) :
    (tag.startTag style).attributes.flatMap StartTag.assignment = tag.assignments := by
  show (tag.written.map fun e => (e.1, Fragment.raw e.2)).flatMap StartTag.assignment =
    tag.written.flatMap fun e => Fragment.assignment e.1 e.2
  rw [List.flatMap_map]
  congr 1
  funext e
  rw [StartTag.assignment, ← Fragment.escape_eq_raw, Fragment.assignment]
  simp

/-- **A fragment is a start tag and what follows it,** and its kind says which of the three. -/
theorem fragment_eq (style : VoidStyle) (tag : Tag) :
    tag.fragment style =
      ⟨tag.kind, tag.name, (tag.startTag style).text ++ tag.following⟩ := by
  have hstart : (tag.startTag style).text = tag.head ++ (tag.ending style).text := by
    rw [StartTag.text, flatMap_assignment_startTag, head_append]
    rfl
  rw [hstart, text_ending]
  rcases fragment_cases style tag with
    ⟨hvoid, h⟩ | ⟨hvoid, content, hcontent, h⟩ | ⟨hvoid, hcontent, h⟩
  · simp [h, kind, following, hvoid]
  · simp [h, kind, following, hvoid, hcontent]
  · simp [h, kind, following, hvoid, hcontent]

/-- The keys of the written attributes are keys, if those of the others are. -/
theorem isKey_written (h : ∀ key ∈ tag.attributes.keys, StartTag.IsKey key) :
    ∀ e ∈ tag.written, StartTag.IsKey e.1 := by
  have hid : StartTag.IsKey "id".toList := ⟨by decide, List.all_eq_true.mp (by decide)⟩
  have hclass : StartTag.IsKey "class".toList := ⟨by decide, List.all_eq_true.mp (by decide)⟩
  intro e he
  -- The identifier comes first, then the classes, then the other attributes.
  rcases List.mem_append.mp he with he | he
  · rcases List.mem_append.mp he with he | he
    · obtain ⟨id, -, rfl⟩ := List.mem_map.mp he
      exact hid
    · split at he
      · exact absurd he List.not_mem_nil
      · obtain rfl := List.mem_singleton.mp he
        exact hclass
  · exact h e.1 (List.mem_map_of_mem he)

theorem wellFormed_startTag (style : VoidStyle) (hname : IsName tag.name)
    (hkeys : ∀ key ∈ tag.attributes.keys, StartTag.IsKey key) :
    (tag.startTag style).WellFormed where
  name := hname
  key a ha := by
    obtain ⟨e, he, rfl⟩ := List.mem_map.mp ha
    exact isKey_written hkeys e he
  value a ha := by
    obtain ⟨e, -, rfl⟩ := List.mem_map.mp ha
    show '"' ∉ Fragment.raw e.2
    rw [← Fragment.escape_eq_raw]
    exact Fragment.quote_notMem_escape e.2

/-- **Rendered tags can be read back.** The fragment of a tag whose name is a name and whose keys
are keys is read as its name; the identifier, the classes with blanks between and the attributes,
in this order and each only if it is there, with the quotes of their values replaced; and the ending
that the style gives to a void element or the bracket of any other. What follows is the content and
then the name between `</` and `>`, or nothing. However else the fragment is taken for a start tag and something after
it, it is this start tag. -/
theorem read?_fragment (style : VoidStyle) (tag : Tag) (hname : IsName tag.name)
    (hkeys : ∀ key ∈ tag.attributes.keys, StartTag.IsKey key) :
    (∃ ending : StartTag.Ending,
      ending.text = (if tag.isVoid then style.terminator else ['>']) ∧
      StartTag.read? (tag.fragment style).html =
        some (⟨tag.name,
          (tag.id.toList.map fun id => ("id".toList, Fragment.raw id)) ++
            (if tag.classes = [] then []
              else [("class".toList, Fragment.raw ([' '].intercalate tag.classes))]) ++
            tag.attributes.entries.map (fun e => (e.1, Fragment.raw e.2)), ending⟩,
          if tag.isVoid then []
          else tag.content.elim [] fun content =>
            content ++ (['<', '/'] ++ tag.name ++ ['>']))) ∧
    (tag.fragment style).kind =
      (if tag.isVoid then .void else if tag.content.isSome then .inline else .opening) ∧
    ∀ (s : StartTag) (rest : Text), s.WellFormed → (tag.fragment style).html = s.text ++ rest →
      StartTag.read? (tag.fragment style).html = some (s, rest) := by
  have hread : StartTag.read? (tag.fragment style).html =
      some (tag.startTag style, tag.following) := by
    rw [fragment_eq]
    exact StartTag.read?_text_append (wellFormed_startTag style hname hkeys) tag.following
  refine ⟨⟨tag.ending style, text_ending style tag, ?_⟩, by rw [fragment_eq]; rfl, ?_⟩
  · -- The identifier, the classes and the other attributes are escaped one like the other.
    rw [hread, startTag, written, List.map_append, List.map_append, List.map_map,
      apply_ite (List.map _)]
    rfl
  · intro s rest hs hhtml
    rw [hhtml]
    exact StartTag.read?_text_append hs rest

/-- A void element whose values hold quotes, brackets and endings of tags, and of whose keys one is
a slash. -/
def entangled : Tag where
  name := "br".toList
  id := some "a\"> b=\"".toList
  classes := ["/>".toList, "\"".toList]
  attributes := ⟨[("/".toList, "\" />".toList), ("k".toList, "&quot;=".toList)]⟩
  content := some "c".toList
  isVoid := true

theorem read?_fragment_entangled :
    (entangled.fragment .xhtml).html =
      "<br id=\"a&quot;> b=&quot;\" class=\"/> &quot;\" /=\"&quot; />\" k=\"&quot;=\" />".toList ∧
    IsName entangled.name ∧ (∀ key ∈ entangled.attributes.keys, StartTag.IsKey key) ∧
    StartTag.read? (entangled.fragment .xhtml).html =
      some (⟨"br".toList,
        [("id".toList, "a&quot;> b=&quot;".toList), ("class".toList, "/> &quot;".toList),
          ("/".toList, "&quot; />".toList), ("k".toList, "&quot;=".toList)], .slashed⟩, []) ∧
    (entangled.fragment .xhtml).kind = .void := by
  have hname : IsName entangled.name := ⟨by decide, List.all_eq_true.mp (by decide)⟩
  have hkeys : ∀ key ∈ entangled.attributes.keys, StartTag.IsKey key :=
    List.forall_mem_cons.mpr ⟨⟨by decide, List.all_eq_true.mp (by decide)⟩,
      List.forall_mem_singleton.mpr ⟨by decide, List.all_eq_true.mp (by decide)⟩⟩
  obtain ⟨⟨ending, hending, hread⟩, hkind, -⟩ :=
    read?_fragment .xhtml entangled hname hkeys
  -- The ending is the one with a slash, since the other has another text.
  obtain rfl : ending = .slashed := by
    cases ending with
    | bracket => exact absurd hending (by decide)
    | slashed => rfl
  exact ⟨by cbv, hname, hkeys, hread.trans (by cbv), hkind⟩

end Tag

end Offside
