import Offside.Attributes.Block
import Offside.Proofs.Text

/-!
# The block by byte offsets

The block of a text is found on the list of its characters, where nothing can go wrong: a depth of
zero is a case of its own, and the parts of the text are put together on the way back. The same
search can be made on the bytes of the text, and then it can fail in two ways (`Text.Fault`). It
counts the braces that are open and takes one off at every closing brace, which must not happen at
zero. And it cuts the parts out of the text by their offsets, each of which must lie within the text
and between two characters, in the right order.

`Block.findByOffset` is that search, with both faults as outcomes. **`Block.findByOffset_eq`** says
that neither of them ever comes about, whatever characters the text is made of, and that the search
finds what `Block.find` finds. The count is one ahead of the depth of `Block.close`, so that it is
never zero within a region (`Block.scanFrom_eq`); and an offset is always the length of a part of
the text that stands before it, which is why it can be cut there (`Text.slice_eq_ok`).

The cuts and their faults are those of all work by offsets, which has a third way to fail: a loop
that edits a text or goes through it piece by piece might not get on.
-/

namespace Offside

/-- A computation goes on with what its first step gives. -/
theorem ok_bind {ε α β : Type} (a : α) (next : α → Except ε β) :
    (Except.ok a >>= next) = next a := rfl

/-! ### Cutting at bytes -/

namespace Text

theorem foldl_utf8Size (t : Text) (n : Nat) :
    t.foldl (fun n c => n + c.utf8Size) n = n + byteLength t := by
  unfold byteLength
  induction t generalizing n with
  | nil => rfl
  | cons c t ih => rw [List.foldl_cons, List.foldl_cons, ih, ih (0 + _), Nat.zero_add, Nat.add_assoc]

@[simp] theorem byteLength_nil : byteLength [] = 0 := rfl

@[simp] theorem byteLength_cons (c : Char) (t : Text) :
    byteLength (c :: t) = c.utf8Size + byteLength t := by
  rw [byteLength, List.foldl_cons, foldl_utf8Size, Nat.zero_add]

@[simp] theorem byteLength_append (a b : Text) :
    byteLength (a ++ b) = byteLength a + byteLength b := by
  rw [byteLength, List.foldl_append, foldl_utf8Size]
  rfl

/-- What can go wrong in work on a text by byte offsets. -/
inductive Fault where
  /-- A number is taken below zero. -/
  | underflow
  /-- A text is cut beyond its end, within a character, or from back to front. -/
  | outOfRange
  /-- A round of a loop leaves as much as it found. -/
  | idle
  deriving DecidableEq, Repr

/-- The text before a byte offset and the text after it. There has to be a boundary of two
characters or an end of the text. -/
def cutAtByte : Text → Nat → Except Fault (Text × Text)
  | t, 0 => .ok ([], t)
  | [], _ + 1 => .error .outOfRange
  | c :: t, n + 1 =>
    if c.utf8Size ≤ n + 1 then
      (cutAtByte t (n + 1 - c.utf8Size)).map fun (before, after) => (c :: before, after)
    else .error .outOfRange

/-- The text between two byte offsets, which have to be in order. -/
def slice (t : Text) (start stop : Nat) : Except Fault Text :=
  if start ≤ stop then do
    let (upTo, _) ← cutAtByte t stop
    let (_, part) ← cutAtByte upTo start
    return part
  else .error .outOfRange

/-- The offsets of a character in a text that begins at an offset. -/
def offsetsOf (mark : Char) (offset : Nat) : Text → List Nat
  | [] => []
  | c :: rest =>
    if c = mark then offset :: offsetsOf mark (offset + c.utf8Size) rest
    else offsetsOf mark (offset + c.utf8Size) rest

/-- A text can be cut at the length of a part that it begins with. -/
theorem cutAtByte_append (a b : Text) : cutAtByte (a ++ b) (byteLength a) = .ok (a, b) := by
  induction a with
  | nil => cases b <;> rfl
  | cons c a ih =>
    obtain ⟨n, hn⟩ : ∃ n, c.utf8Size + byteLength a = n + 1 :=
      Nat.exists_eq_succ_of_ne_zero (by have := c.utf8Size_pos; omega)
    have hle : c.utf8Size ≤ n + 1 := by omega
    have hrest : n + 1 - c.utf8Size = byteLength a := by omega
    rw [List.cons_append, byteLength_cons, hn, cutAtByte, if_pos hle, hrest, ih]
    rfl

/-- And at the length of two parts in a row. -/
theorem cutAtByte_append_append (a b c : Text) :
    cutAtByte (a ++ (b ++ c)) (byteLength a + byteLength b) = .ok (a ++ b, c) := by
  rw [← List.append_assoc, ← byteLength_append]
  exact cutAtByte_append (a ++ b) c

variable {t a b c : Text} {start stop : Nat}

/-- **A part can be cut out** if its offsets are the length of the text before it and that of the
text up to its end. -/
theorem slice_eq_ok (ht : t = a ++ (b ++ c)) (hstart : start = byteLength a)
    (hstop : stop = byteLength a + byteLength b) : slice t start stop = .ok b := by
  rw [ht, hstart, hstop, slice, if_pos (Nat.le_add_right _ _), cutAtByte_append_append, ok_bind]
  show (cutAtByte (a ++ b) (byteLength a) >>= _) = _
  rw [cutAtByte_append]
  rfl

/-- The start of a text, up to the length of a part that it begins with. -/
theorem slice_start (ht : t = a ++ b) (hstop : stop = byteLength a) : slice t 0 stop = .ok a :=
  slice_eq_ok (a := []) (b := a) (c := b) ht rfl (hstop.trans (Nat.zero_add _).symm)

/-- The end of a text, from the length of a part that it begins with. -/
theorem slice_end (ht : t = a ++ b) (hstart : start = byteLength a) :
    slice t start (byteLength t) = .ok b :=
  slice_eq_ok (a := a) (b := b) (c := []) (by rw [ht, List.append_nil]) hstart
    (by rw [ht, byteLength_append])

end Text

namespace Block

open Text (Fault slice offsetsOf)

/-! ### The search -/

/-- A number less one. -/
def lower : Nat → Except Fault Nat
  | 0 => .error .underflow
  | n + 1 => .ok n

/-- Reads on from an offset with `depth` braces open, and gives the offset of the brace after which
none is. -/
def scanFrom (offset depth : Nat) (quote : Option Char) (previous : Char) :
    Text → Except Fault (Option Nat)
  | [] => .ok none
  | c :: rest =>
    match quote with
    | some q => scanFrom (offset + c.utf8Size) depth (if c = q then none else some q) c rest
    | none =>
      if isQuote c && admitsQuote previous then
        scanFrom (offset + c.utf8Size) depth (some c) c rest
      else if c = '{' then
        scanFrom (offset + c.utf8Size) (depth + 1) none c rest
      else if c = '}' then do
        let outer ← lower depth
        if outer = 0 then return some offset
        scanFrom (offset + c.utf8Size) outer none c rest
      else
        scanFrom (offset + c.utf8Size) depth none c rest

/-- The offset of the brace that balances the one that a text starts with. -/
def closingOffset (t : Text) : Except Fault (Option Nat) :=
  scanFrom 0 0 none ' ' t

/-- Tries the opening braces at some offsets in turn; the flag says whether there was one before. -/
def findFrom (t : Text) (seen : Bool) : List Nat → Except Fault Block
  | [] => .ok (if seen then .unclosed else .absent)
  | start :: later => do
    let rest ← slice t start (Text.byteLength t)
    match ← closingOffset rest with
    | some length =>
      let before ← slice t 0 start
      let inner ← slice t (start + 1) (start + length)
      let after ← slice t (start + length + 1) (Text.byteLength t)
      return .closed before inner after
    | none => findFrom t true later

/-- The block of a text, found by byte offsets. -/
def findByOffset (t : Text) : Except Fault Block :=
  findFrom t false (offsetsOf '{' 0 t)

/-! ### It never fails -/

/-- **One brace more is open than there are regions around,** so taking one off never fails. -/
theorem scanFrom_eq (offset depth : Nat) (quote : Option Char) (previous : Char) (t : Text) :
    scanFrom offset (depth + 1) quote previous t =
      .ok ((close depth quote previous t).map fun r => offset + Text.byteLength r.1) := by
  induction t generalizing offset depth quote previous with
  | nil => rfl
  | cons c rest ih =>
    -- In every case but the last the character goes to the inside and moves the offset on.
    have step {d : Nat} {q : Option Char} :
        scanFrom (offset + c.utf8Size) (d + 1) q c rest =
          .ok (((close d q c rest).map fun (i, a) => (c :: i, a)).map fun r =>
            offset + Text.byteLength r.1) := by
      rw [ih, Option.map_map]
      congr 2
      funext r
      show offset + c.utf8Size + Text.byteLength r.1 = offset + Text.byteLength (c :: r.1)
      rw [Text.byteLength_cons, Nat.add_assoc]
    unfold scanFrom close
    split
    · exact step
    · split
      · exact step
      · split
        · exact step
        · split
          · cases depth with
            | zero => rfl
            | succ outer => exact step
          · exact step

theorem closingOffset_cons (rest : Text) :
    closingOffset ('{' :: rest) =
      .ok ((region rest).map fun r => 1 + Text.byteLength r.1) :=
  scanFrom_eq 1 0 none '{' rest

/-- What is found to the right of a part that is already behind. -/
def resume (seen : Bool) (behind : Text) : Block → Block
  | .absent => if seen then .unclosed else .absent
  | .unclosed => .unclosed
  | .closed before inner after => .closed (behind ++ before) inner after

theorem resume_shift (seen : Bool) (behind : Text) (c : Char) (block : Block) :
    resume seen behind (shift c block) = resume (seen || c = '{') (behind ++ [c]) block := by
  cases block with
  | absent => by_cases hc : c = '{' <;> cases seen <;> simp [shift, resume, hc]
  | unclosed => rfl
  | closed before inner after => simp [shift, resume]

theorem findFrom_eq (seen : Bool) (behind rest : Text) :
    findFrom (behind ++ rest) seen (offsetsOf '{' (Text.byteLength behind) rest) =
      .ok (resume seen behind (find rest)) := by
  induction rest generalizing seen behind with
  | nil => rfl
  | cons c rest ih =>
    -- The character goes behind, and the search is that of the rest.
    have hnext (found : Bool) :
        findFrom (behind ++ c :: rest) found
            (offsetsOf '{' (Text.byteLength behind + c.utf8Size) rest) =
          .ok (resume found (behind ++ [c]) (find rest)) := by
      have hbehind : Text.byteLength behind + c.utf8Size = Text.byteLength (behind ++ [c]) := by
        simp
      rw [hbehind, List.append_cons]
      exact ih found (behind ++ [c])
    by_cases hc : c = '{'
    · subst hc
      have hrest : slice (behind ++ '{' :: rest) (Text.byteLength behind)
          (Text.byteLength (behind ++ '{' :: rest)) = .ok ('{' :: rest) :=
        Text.slice_end rfl rfl
      rw [offsetsOf, if_pos rfl, findFrom, hrest, ok_bind, closingOffset_cons, find, if_pos rfl]
      cases hregion : region rest with
      | none =>
        show findFrom _ true _ = .ok (resume seen behind (shift '{' (find rest)))
        rw [hnext true, resume_shift, decide_eq_true rfl, Bool.or_true]
      | some parts =>
        obtain ⟨inner, after⟩ := parts
        -- The text is put together from its parts, so each of them can be cut out of it.
        have htext : rest = inner ++ '}' :: after := eq_of_close hregion
        have hopen : '{'.utf8Size = 1 := rfl
        have hclose : '}'.utf8Size = 1 := rfl
        have hbefore : slice (behind ++ '{' :: rest) 0 (Text.byteLength behind) = .ok behind :=
          Text.slice_start rfl rfl
        have hinner : slice (behind ++ '{' :: rest) (Text.byteLength behind + 1)
            (Text.byteLength behind + (1 + Text.byteLength inner)) = .ok inner :=
          Text.slice_eq_ok (a := behind ++ ['{']) (c := '}' :: after) (by simp [htext])
            (by simp [hopen]) (by simp [hopen]; omega)
        have hafter : slice (behind ++ '{' :: rest)
            (Text.byteLength behind + (1 + Text.byteLength inner) + 1)
            (Text.byteLength (behind ++ '{' :: rest)) = .ok after :=
          Text.slice_end (a := behind ++ '{' :: inner ++ ['}']) (by simp [htext])
            (by simp [hopen, hclose]; omega)
        -- The three cuts succeed one after the other.
        dsimp only [Option.map_some, ok_bind]
        rw [hbefore, ok_bind, hinner, ok_bind, hafter, resume, List.append_nil]
        rfl
    · rw [offsetsOf, if_neg hc, hnext seen, find, if_neg hc]
      show _ = Except.ok (resume seen behind (shift c (find rest)))
      rw [resume_shift, decide_eq_false hc, Bool.or_false]

/-- **The search by offsets never fails,** and it finds the block. -/
theorem findByOffset_eq (t : Text) : findByOffset t = .ok (find t) := by
  have hfind := findFrom_eq false [] t
  have hresume : resume false [] (find t) = find t := by
    cases find t <;> rfl
  rwa [hresume] at hfind

end Block

end Offside
