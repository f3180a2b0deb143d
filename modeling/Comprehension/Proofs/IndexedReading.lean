import Comprehension.Plan
import Comprehension.Proofs.LongestReference
import Comprehension.Proofs.Logged

/-!
# Reading with indices

A cursor holds what is left of a template, so nothing can be missing from it.  Here a template is
read once more with a bookmark, which holds the number of slots that were taken and the unread text
of the segment after them.  Every index is checked: the segment at a number has to be there, a text
is cut only between two characters, and a reference has a first part.  Each bookmark on the way is
noted.

Reading with indices never leaves the bounds and gives what reading with a cursor gives
(`Template.follows_indexedReading`).  The invariant of the steps is `Bookmark.Valid`: no more slots
were taken than there are, and the unread text ends the segment after them.

## Main definitions

* `Bookmark`, `Template.indexedReading`: reading with indices.
* `Bookmark.Valid`, `Bookmark.At`: bookmarks inside of a template, and the cursors they stand for.

## Main results

* `isSome_dropBytes?_iff`: where a text can be cut.
* `Template.follows_indexedReading`: reading with indices is reading.
-/

namespace Comprehension

open Text

/-! ### Cutting bytes off -/

/-- What is left of a text after a number of bytes, unless these end inside of a character or go
beyond the text. -/
def dropBytes? : Nat → List Char → Option (List Char)
  | 0, cs => some cs
  | _ + 1, [] => none
  | n + 1, c :: cs => if c.utf8Size ≤ n + 1 then dropBytes? (n + 1 - c.utf8Size) cs else none

theorem utf8ByteSize_ofList_cons (c : Char) (cs : List Char) :
    (String.ofList (c :: cs)).utf8ByteSize = c.utf8Size + (String.ofList cs).utf8ByteSize := by
  rw [String.ofList_cons, String.utf8ByteSize_append, String.utf8ByteSize_singleton]

theorem dropBytes?_eq_some_iff {n : Nat} {cs rest : List Char} :
    dropBytes? n cs = some rest ↔
      ∃ start, cs = start ++ rest ∧ (String.ofList start).utf8ByteSize = n := by
  constructor
  · intro h
    fun_induction dropBytes? n cs with
    | case1 cs => exact ⟨[], (Option.some.inj h), rfl⟩
    | case2 n => exact absurd h (by simp)
    | case3 n c cs hc ih =>
      obtain ⟨start, rfl, hstart⟩ := ih h
      refine ⟨c :: start, rfl, ?_⟩
      rw [utf8ByteSize_ofList_cons]
      omega
    | case4 n c cs hc => exact absurd h (by simp)
  · rintro ⟨start, rfl, rfl⟩
    induction start with
    | nil =>
      rw [String.ofList_nil, String.utf8ByteSize_empty, List.nil_append, dropBytes?]
    | cons c start ih =>
      have hpos := c.utf8Size_pos
      obtain ⟨n, hn⟩ := Nat.exists_eq_succ_of_ne_zero
        (n := (String.ofList (c :: start)).utf8ByteSize)
        (by rw [utf8ByteSize_ofList_cons]; omega)
      rw [hn, List.cons_append, dropBytes?]
      rw [utf8ByteSize_ofList_cons] at hn
      rw [if_pos (by omega), ← ih]
      congr 1
      omega

/-- A text can be cut at its positions, which are between two characters or at its ends. -/
theorem isSome_dropBytes?_iff {s : String} {p : String.Pos.Raw} :
    (dropBytes? p.byteIdx s.toList).isSome = true ↔ p.IsValid s := by
  rw [Option.isSome_iff_exists, String.Pos.Raw.isValid_iff_exists_append]
  constructor
  · rintro ⟨rest, hrest⟩
    obtain ⟨start, hs, hstart⟩ := dropBytes?_eq_some_iff.mp hrest
    refine ⟨String.ofList start, String.ofList rest, ?_, ?_⟩
    · rw [← String.ofList_append, ← hs, String.ofList_toList]
    · exact String.Pos.Raw.ext hstart.symm
  · rintro ⟨start, rest, rfl, rfl⟩
    refine ⟨rest.toList, dropBytes?_eq_some_iff.mpr ⟨start.toList, String.toList_append, ?_⟩⟩
    rw [String.ofList_toList]
    rfl

/-! ### Reading -/

namespace Reference

variable {r : Reference}

/-- A reference from its parts, of which there has to be a first. -/
def ofParts? : List (List Char) → Option Reference
  | [] => none
  | head :: tail => some ⟨String.ofList head, tail.map String.ofList⟩

/-- What is left after a reference is cut off between two characters. -/
theorem dropBytes?_raw {rest : List Char} :
    dropBytes? r.raw.utf8ByteSize (r.raw.toList ++ rest) = some rest :=
  dropBytes?_eq_some_iff.mpr ⟨r.raw.toList, rfl, by rw [String.ofList_toList]⟩

/-- A reference ends between two characters of the text that it is read from, or at its end. -/
theorem isValid_rawEndPos {text : String} (h : ofText? text = some r) :
    r.raw.rawEndPos.IsValid text := by
  obtain ⟨rest, -, -, htext⟩ := ofText?_eq_some_iff.mp h
  have hcut : dropBytes? r.raw.utf8ByteSize text.toList = some rest := by
    rw [htext, dropBytes?_raw]
  exact isSome_dropBytes?_iff.mp (Option.isSome_of_eq_some hcut)

/-- A reference is put together again from the pieces between its dots. -/
theorem ofParts?_splitOn_raw (h : r.IsWellFormed) :
    ofParts? (r.raw.toList.splitOn '.') = some r := by
  have htail : (r.tail.map String.toList).map String.ofList = r.tail := by
    rw [List.map_map]
    exact List.map_id'' (fun _ => String.ofList_toList) _
  rw [splitOn_raw h, parts, List.map_cons, ofParts?, htail, String.ofList_toList]

end Reference

/-- A place in a template: how many slots were taken, and the unread text of the segment there. -/
structure Bookmark where
  slot : Nat
  text : List Char

/-- Steps of reading that note bookmarks and check indices. -/
abbrev IndexedReading (α : Type) : Type := Logged Bookmark (Stop ParseError) α

namespace Bookmark

open Logged

/-- The start of a template. -/
def start (t : Template) : IndexedReading Bookmark := do
  let segment ← expect t.segments[0]?
  note ⟨0, trim (stripRun '{' (trim segment.toList))⟩

/-- The next slot.  Reading goes on with the segment after it. -/
def takeSlot (t : Template) (b : Bookmark) : IndexedReading (Option (Slot × Bookmark)) :=
  match t.slots[b.slot]? with
  | none => pure none
  | some x => do
    let segment ← expect t.segments[b.slot + 1]?
    let b ← note ⟨b.slot + 1, trim segment.toList⟩
    return some (x, b)

/-- Reads the operand of a key or a value. -/
def readOperand (t : Template) (half : Half) (b : Bookmark) :
    IndexedReading (Operand × Bookmark) :=
  if b.text = [] then do
    match ← b.takeSlot t with
    | none => refuse (.missing half)
    | some (x, b) =>
      if half = .key ∧ x.isNullish = true then refuse (.missing half) else return (.slot x, b)
  else
    match Reference.ofText? (String.ofList b.text) with
    | none => refuse (.invalidReference half (String.ofList b.text))
    | some r => do
      let rest ← expect (dropBytes? r.raw.utf8ByteSize b.text)
      let b ← note { b with text := trimStart rest }
      let r ← expect (Reference.ofParts? (r.raw.toList.splitOn '.'))
      return (.reference r, b)

/-- Reads the colon between key and value. -/
def readColon (b : Bookmark) : IndexedReading Bookmark :=
  match b.text with
  | ':' :: rest => note { b with text := trimStart rest }
  | text => refuse (.missingColon (String.ofList text))

/-- Reads the clause.  Its text is taken before it is looked at. -/
def readBindings (b : Bookmark) : IndexedReading (Bindings × Bookmark) := do
  let after ← note { b with text := [] }
  let bindings ← lift (readClause (trim b.text))
  return (bindings, after)

/-- Reads the source. -/
def readEntries (t : Template) (iteration : Iteration) (b : Bookmark) :
    IndexedReading (Entries × Bookmark) := do
  match ← b.takeSlot t with
  | none => refuse (.invalidSource iteration none)
  | some (x, b) =>
    let entries ← lift (Entries.ofSlot iteration x)
    return (entries, b)

/-- Checks that only closing braces and white space follow the source, and no slot. -/
def readEnd (t : Template) (b : Bookmark) : IndexedReading Unit :=
  match b.text.dropWhile Cursor.isClosing with
  | ch :: rest => refuse (.trailingText (String.ofList (ch :: rest)))
  | [] => do
    match ← b.takeSlot t with
    | none => return ()
    | some (x, _) => refuse (.extraSlot x.kind)

end Bookmark

/-- Reads a template with indices. -/
def Template.indexedReading (t : Template) : IndexedReading Plan := do
  let b ← Bookmark.start t
  let (key, b) ← b.readOperand t .key
  let b ← b.readColon
  let (value, b) ← b.readOperand t .value
  let (bindings, b) ← b.readBindings
  let (entries, b) ← b.readEntries t bindings.iteration
  b.readEnd t
  let key ← Logged.lift (Provider.bind bindings key)
  let value ← Logged.lift (Provider.bind bindings value)
  return ⟨key, value, bindings, entries⟩

/-! ### Staying inside of the template -/

namespace Template

/-- The slots that are ahead, each with the segment after it. -/
theorem getElem?_slots (t : Template) (i : Nat) : t.slots[i]? = t.rest[i]?.map Prod.fst :=
  List.getElem?_map

theorem getElem?_segments_succ (t : Template) (i : Nat) :
    t.segments[i + 1]? = t.rest[i]?.map Prod.snd := by
  rw [segments, List.getElem?_cons_succ, List.getElem?_map]

end Template

namespace Bookmark

/-- No more slots were taken than there are, there is a segment after them, and the unread text ends
it, white space aside. -/
structure Valid (t : Template) (b : Bookmark) : Prop where
  slot_le : b.slot ≤ t.slots.length
  segment : ∃ segment, t.segments[b.slot]? = some segment ∧ b.text <:+ trim segment.toList

/-- A bookmark inside of a template, and the cursor with the same text unread and the same slots
ahead. -/
structure At (t : Template) (b : Bookmark) (c : Cursor) : Prop where
  valid : b.Valid t
  text : c.text = b.text
  ahead : c.ahead = t.rest.drop b.slot

variable {t : Template} {b : Bookmark} {c : Cursor}

/-- Less text may be left unread. -/
theorem Valid.of_suffix (h : b.Valid t) {cs : List Char} (hcs : cs <:+ b.text) :
    Valid t { b with text := cs } := by
  obtain ⟨hle, segment, hsegment, htext⟩ := h
  exact ⟨hle, segment, hsegment, hcs.trans htext⟩

theorem At.of_suffix (h : b.At t c) {cs : List Char} (hcs : cs <:+ b.text) :
    At t { b with text := cs } { c with text := cs } :=
  ⟨h.valid.of_suffix hcs, rfl, h.ahead⟩

/-- A template starts inside of its first segment. -/
theorem at_start (t : Template) :
    At t ⟨0, trim (stripRun '{' (trim t.lead.toList))⟩ (Cursor.start t) := by
  refine ⟨⟨Nat.zero_le _, t.lead, rfl, ?_⟩, rfl, rfl⟩
  have hsuffix := trim_suffix (List.dropWhile_suffix (· == '{') (l := trim t.lead.toList))
  rwa [trim_trim] at hsuffix

/-- A bookmark is noted where its cursor is. -/
theorem At.note (h : b.At t c) :
    Follows (Valid t) Stop.IsError (At t) (Logged.note b : IndexedReading Bookmark)
      (.ok c : Except ParseError Cursor) :=
  .note h.valid h

/-- The slot at a bookmark is the first slot ahead, and the segment after it is there. -/
theorem At.takeSlot (h : b.At t c) :
    Follows (Valid t) Stop.IsError
      (Option.Rel fun p q => p.1 = q.1 ∧ p.2.At t q.2) (b.takeSlot t)
      (.ok c.takeSlot? : Except ParseError _) := by
  obtain ⟨text, ahead⟩ := c
  obtain ⟨hvalid, -, hahead⟩ := h
  obtain rfl : ahead = t.rest.drop b.slot := hahead
  -- Slots and the segments after them are the two columns of one list.
  rw [Bookmark.takeSlot, Template.getElem?_slots, Template.getElem?_segments_succ]
  cases hslot : t.rest[b.slot]? with
  | none =>
    have hnil : t.rest.drop b.slot = [] :=
      List.drop_eq_nil_iff.mpr (List.getElem?_eq_none_iff.mp hslot)
    rw [hnil]
    exact .pure .none
  | some p =>
    obtain ⟨x, segment⟩ := p
    obtain ⟨hlt, hget⟩ := List.getElem?_eq_some_iff.mp hslot
    have hcons : t.rest.drop b.slot = (x, segment) :: t.rest.drop (b.slot + 1) := by
      rw [List.drop_eq_getElem_cons hlt, hget]
    have hnext : At t ⟨b.slot + 1, trim segment.toList⟩
        ⟨trim segment.toList, t.rest.drop (b.slot + 1)⟩ := by
      refine ⟨⟨?_, segment, ?_, List.suffix_rfl⟩, rfl, rfl⟩
      · rwa [Template.slots, List.length_map]
      · rw [Template.getElem?_segments_succ, hslot]
        rfl
    rw [hcons]
    simp only [Option.map_some, Logged.expect_some_bind]
    exact hnext.note.bind_ok fun b' hb' => .pure (.some ⟨rfl, hb'⟩)

/-- A reference that is read leaves an end of the text unread. -/
theorem At.reference (h : b.At t c) {r : Reference} {rest : List Char}
    (hr : readReference b.text = some (r, rest)) :
    At t { b with text := trimStart rest } { c with text := trimStart rest } := by
  obtain ⟨-, -, htext⟩ := readReference_eq_some_iff.mp hr
  refine h.of_suffix ((List.dropWhile_suffix _).trans ?_)
  rw [htext]
  exact List.suffix_append _ _

theorem At.readOperand (h : b.At t c) (half : Half) :
    Follows (Valid t) Stop.IsError (fun p q => p.1 = q.1 ∧ p.2.At t q.2)
      (b.readOperand t half) (c.readOperand half) := by
  rw [Bookmark.readOperand, Cursor.readOperand, h.text]
  split
  · refine h.takeSlot.bind_ok fun o ho => ?_
    generalize c.takeSlot? = o' at ho
    cases ho with
    | none => exact .fail rfl
    | @some p q hpq =>
      obtain ⟨x, b'⟩ := p
      obtain ⟨y, c'⟩ := q
      obtain ⟨rfl, hnext⟩ := hpq
      simp only
      split
      · exact .fail rfl
      · exact .pure ⟨rfl, hnext⟩
  · rw [Reference.ofText?, String.toList_ofList]
    cases hread : readReference b.text with
    | none => exact .fail rfl
    | some p =>
      obtain ⟨r, rest⟩ := p
      obtain ⟨hr, -, htext⟩ := readReference_eq_some_iff.mp hread
      have hcut : dropBytes? r.raw.utf8ByteSize b.text = some rest := by
        rw [htext, Reference.dropBytes?_raw]
      simp only [Option.map_some, hcut, Reference.ofParts?_splitOn_raw hr, Logged.expect_some_bind]
      exact (h.reference hread).note.bind_ok fun b' hb' => .pure ⟨rfl, hb'⟩

theorem At.readColon (h : b.At t c) :
    Follows (Valid t) Stop.IsError (At t) b.readColon c.readColon := by
  by_cases hcolon : ∃ rest, b.text = ':' :: rest
  · obtain ⟨rest, htext⟩ := hcolon
    have hrest : trimStart rest <:+ b.text := by
      rw [htext]
      exact (List.dropWhile_suffix _).trans (List.suffix_cons _ _)
    rw [Bookmark.readColon, Cursor.readColon, h.text, htext]
    exact (h.of_suffix hrest).note
  -- Either reader has its own match, so each is brought to its error alone.
  · have hbookmark : b.readColon = Logged.refuse (.missingColon (String.ofList b.text)) := by
      rw [Bookmark.readColon]
      split
      · rename_i rest htext
        exact absurd ⟨rest, htext⟩ hcolon
      · rfl
    have hcursor : c.readColon = .error (.missingColon (String.ofList b.text)) := by
      rw [Cursor.readColon, h.text]
      split
      · rename_i rest htext
        exact absurd ⟨rest, htext⟩ hcolon
      · rfl
    rw [hbookmark, hcursor]
    exact .fail rfl

theorem At.readBindings (h : b.At t c) :
    Follows (Valid t) Stop.IsError (fun p q => p.1 = q.1 ∧ p.2.At t q.2)
      b.readBindings c.readBindings := by
  rw [Bookmark.readBindings, Cursor.readBindings, h.text]
  refine (h.of_suffix List.nil_suffix).note.bind_ok fun b' hb' => ?_
  refine (Follows.lift _).bind fun bindings bindings' hbindings => ?_
  exact .pure ⟨hbindings, hb'⟩

theorem At.readEntries (h : b.At t c) (iteration : Iteration) :
    Follows (Valid t) Stop.IsError (fun p q => p.1 = q.1 ∧ p.2.At t q.2)
      (b.readEntries t iteration) (c.readEntries iteration) := by
  rw [Bookmark.readEntries, Cursor.readEntries]
  refine h.takeSlot.bind_ok fun o ho => ?_
  generalize c.takeSlot? = o' at ho
  cases ho with
  | none => exact .fail rfl
  | @some p q hpq =>
    obtain ⟨x, b'⟩ := p
    obtain ⟨y, c'⟩ := q
    obtain ⟨rfl, hnext⟩ := hpq
    exact (Follows.lift _).bind fun entries entries' hentries => .pure ⟨hentries, hnext⟩

theorem At.readEnd (h : b.At t c) :
    Follows (Valid t) Stop.IsError Eq (b.readEnd t) c.readEnd := by
  have hslot := h.takeSlot
  obtain ⟨text, ahead⟩ := c
  obtain rfl : text = b.text := h.text
  simp only [Bookmark.readEnd, Cursor.readEnd]
  cases b.text.dropWhile Cursor.isClosing with
  | cons ch rest => exact .fail rfl
  | nil =>
    refine hslot.bind_ok fun o ho => ?_
    cases ahead with
    | nil =>
      cases ho with
      | none => exact .pure rfl
    | cons q ahead =>
      cases ho with
      | @some p _ hpq =>
        obtain ⟨x, b'⟩ := p
        obtain ⟨rfl, -⟩ := hpq
        exact .fail rfl

end Bookmark

/-! ### Reading as a whole -/

/-- The start of a template is noted whatever comes after it. -/
theorem Template.start_mem_log (t : Template) :
    ⟨0, trim (stripRun '{' (trim t.lead.toList))⟩ ∈ t.indexedReading.log := by
  rw [indexedReading, Bookmark.start, segments, List.getElem?_cons_zero, Logged.expect_some_bind]
  exact List.mem_cons_self

/-- Reading with indices is reading, and every bookmark is inside of the template. -/
theorem Template.follows_indexedReading (t : Template) :
    Follows (Bookmark.Valid t) Stop.IsError Eq t.indexedReading
      (Plan.ofTemplate t) := by
  have hstart := (Bookmark.at_start t).note
  refine hstart.bind_ok fun b hb => ?_
  refine (hb.readOperand .key).bind fun (key, b) (key', c) ⟨hkey, hb⟩ => ?_
  refine hb.readColon.bind fun b c hb => ?_
  refine (hb.readOperand .value).bind fun (value, b) (value', c) ⟨hvalue, hb⟩ => ?_
  refine hb.readBindings.bind fun (bindings, b) (bindings', c) ⟨hbindings, hb⟩ => ?_
  obtain rfl : bindings = bindings' := hbindings
  refine (hb.readEntries bindings.iteration).bind fun (es, b) (es', c) ⟨hentries, hb⟩ => ?_
  obtain rfl : key = key' := hkey
  obtain rfl : value = value' := hvalue
  obtain rfl : es = es' := hentries
  refine hb.readEnd.bind fun _ _ _ => ?_
  refine (Follows.lift _).bind fun p p' hp => ?_
  refine (Follows.lift _).bind fun q q' hq => ?_
  obtain rfl : p = p' := hp
  obtain rfl : q = q' := hq
  exact .pure rfl

end Comprehension
