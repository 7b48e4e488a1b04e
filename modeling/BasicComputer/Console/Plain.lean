/-!
# Plain text

Colour is written into text by escape sequences: an ESC character and what follows it up to the next
letter m. A text is plain when it has none.
-/

namespace BasicComputer

/-- What is left of a text without its escape sequences; the flag tells whether one is under way. -/
def plainFrom : Bool → List Char → List Char
  | _, [] => []
  | true, c :: rest => plainFrom (c != 'm') rest
  | false, c :: rest => if c = '\x1b' then plainFrom true rest else c :: plainFrom false rest

/-- The text without its escape sequences. -/
def plain (text : List Char) : List Char := plainFrom false text

/-- Nothing is left that could begin an escape sequence. -/
theorem not_mem_plainFrom (inside : Bool) (text : List Char) : '\x1b' ∉ plainFrom inside text := by
  fun_induction plainFrom inside text with
  | case1 => simp
  | case2 c rest ih => exact ih
  | case3 rest ih => exact ih
  | case4 c rest hc ih => simpa [ih] using Ne.symm hc

theorem plain_eq_self {text : List Char} (h : '\x1b' ∉ text) : plain text = text := by
  unfold plain
  induction text with
  | nil => rfl
  | cons c rest ih =>
    rw [List.mem_cons, not_or] at h
    simp [plainFrom, Ne.symm h.1, ih h.2]

end BasicComputer
