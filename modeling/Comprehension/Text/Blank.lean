/-!
# White space, control characters and trimming

The white-space characters are the twenty-five of the Unicode property White_Space, and the
control characters the sixty-five of category Cc.  Texts are worked on as lists of characters:
`trimStart` and `trimEnd` remove the white space at one end, `trim` at both.
-/

namespace Comprehension.Text

/-- White space is the Unicode property White_Space, which has twenty-five characters. -/
def isBlank (c : Char) : Bool :=
  let n := c.toNat
  (0x09 ≤ n && n ≤ 0x0D) || n == 0x20 || n == 0x85 || n == 0xA0 || n == 0x1680 ||
    (0x2000 ≤ n && n ≤ 0x200A) || n == 0x2028 || n == 0x2029 || n == 0x202F || n == 0x205F ||
    n == 0x3000

/-- The control characters are U+0000 to U+001F and U+007F to U+009F. -/
def isControl (c : Char) : Bool :=
  let n := c.toNat
  n < 0x20 || (0x7F ≤ n && n ≤ 0x9F)

/-- The text without the white space it starts with. -/
def trimStart (cs : List Char) : List Char := cs.dropWhile isBlank

/-- The text without the white space it ends with. -/
def trimEnd (cs : List Char) : List Char := (trimStart cs.reverse).reverse

/-- The text without the white space at either end. -/
def trim (cs : List Char) : List Char := trimEnd (trimStart cs)

/-- The text without the run of `c` it starts with. -/
def stripRun (c : Char) (cs : List Char) : List Char := cs.dropWhile (· == c)

theorem length_trimStart_le (cs : List Char) : (trimStart cs).length ≤ cs.length :=
  (List.dropWhile_sublist isBlank).length_le

theorem trimStart_append_of_blank {w : List Char} (hw : ∀ c ∈ w, isBlank c = true)
    (cs : List Char) : trimStart (w ++ cs) = trimStart cs := by
  induction w with
  | nil => rfl
  | cons c w ih =>
    have hc := hw c List.mem_cons_self
    simpa [trimStart, hc] using ih fun d hd => hw d (List.mem_cons_of_mem _ hd)

theorem trimEnd_append_of_blank {w : List Char} (hw : ∀ c ∈ w, isBlank c = true)
    (cs : List Char) : trimEnd (cs ++ w) = trimEnd cs := by
  have h := trimStart_append_of_blank (w := w.reverse) (fun c hc => hw c (List.mem_reverse.mp hc))
    cs.reverse
  simp only [trimEnd, List.reverse_append, h]

/-- The first character of a trimmed start is no white space. -/
theorem head?_trimStart {cs : List Char} {c : Char} (h : (trimStart cs).head? = some c) :
    isBlank c = false := by
  have hd := List.head?_dropWhile_not isBlank cs
  unfold trimStart at h
  rw [h] at hd
  simpa using hd

end Comprehension.Text
