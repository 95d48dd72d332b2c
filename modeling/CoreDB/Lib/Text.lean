import Mathlib.Algebra.Group.Nat.Defs
import Mathlib.Data.List.TakeWhile

/-!
# Text files, line by line

A text is a list of characters.  `lines` is what reading a file line by line until
it fails yields: the newline is dropped, and a last line may lack it.  `word` and
`readUnsigned` are formatted input of a word and of an unsigned number: white space
is skipped, a number may have a sign and saturates.
-/

namespace TextFile

abbrev Text := List Char

/-! ## Lines -/

def lines : Text → List Text
  | [] => []
  | c :: t =>
    if c = '\n' then [] :: lines t
    else
      match lines t with
      | [] => [[c]]
      | l :: ls => (c :: l) :: ls

def unlines (ls : List Text) : Text := ls.flatMap fun l => l ++ ['\n']

theorem lines_append_newline (l : Text) (h : '\n' ∉ l) (t : Text) :
    lines (l ++ '\n' :: t) = l :: lines t := by
  induction l with
  | nil => simp [lines]
  | cons c l ih =>
    simp only [List.mem_cons, not_or] at h
    rw [List.cons_append, lines, if_neg (Ne.symm h.1), ih h.2]

theorem lines_unlines (ls : List Text) (h : ∀ l ∈ ls, '\n' ∉ l) : lines (unlines ls) = ls := by
  induction ls with
  | nil => rfl
  | cons l ls ih =>
    have hsplit : unlines (l :: ls) = l ++ '\n' :: unlines ls := by simp [unlines]
    rw [hsplit, lines_append_newline l (h l List.mem_cons_self), ih fun m hm => h m (List.mem_cons_of_mem _ hm)]

/-! ## Formatted input -/

def isSpace (c : Char) : Bool :=
  c = ' ' || c = '\t' || c = '\n' || c = '\x0b' || c = '\x0c' || c = '\r'

/-- The next word, and what follows it. -/
def word (t : Text) : Text × Text :=
  let t := t.dropWhile isSpace
  (t.takeWhile fun c => !isSpace c, t.dropWhile fun c => !isSpace c)

/-- The sign in front of a number, if there is one. -/
def sign : Text → Bool × Text
  | '-' :: t => (true, t)
  | '+' :: t => (false, t)
  | t => (false, t)

/-- The unsigned number of `bits` bits at the front; 0 if there is none. -/
def readUnsigned (bits : Nat) (t : Text) : Nat :=
  let p := sign (t.dropWhile isSpace)
  let n := Nat.ofDigitChars 10 (p.2.takeWhile Char.isDigit) 0
  if 2 ^ bits ≤ n then 2 ^ bits - 1 else if p.1 then (2 ^ bits - n) % 2 ^ bits else n

theorem isSpace_of_isDigit {c : Char} (h : c.isDigit = true) : isSpace c = false := by
  unfold isSpace
  simp only [Bool.or_eq_false_iff, decide_eq_false_iff_not]
  refine ⟨⟨⟨⟨⟨?_, ?_⟩, ?_⟩, ?_⟩, ?_⟩, ?_⟩ <;>
    · rintro rfl
      revert h
      decide

theorem sign_of_isDigit {c : Char} (h : c.isDigit = true) (t : Text) : sign (c :: t) = (false, c :: t) := by
  unfold sign
  split
  · next heq =>
    cases heq
    exact absurd h (by decide)
  · next heq =>
    cases heq
    exact absurd h (by decide)
  · rfl

/-- **A printed number reads back.** -/
theorem readUnsigned_toDigits (bits n : Nat) (h : n < 2 ^ bits) :
    readUnsigned bits (' ' :: Nat.toDigits 10 n) = n := by
  have hdig : ∀ c ∈ Nat.toDigits 10 n, c.isDigit = true := fun c hc =>
    Nat.isDigit_of_mem_toDigits (by omega) (by omega) hc
  have hval : Nat.ofDigitChars 10 (Nat.toDigits 10 n) 0 = n := Nat.ofDigitChars_toDigits (by omega) (by omega)
  have hall : (Nat.toDigits 10 n).takeWhile Char.isDigit = Nat.toDigits 10 n := List.takeWhile_eq_self_iff.mpr hdig
  cases hd : Nat.toDigits 10 n with
  | nil => exact absurd hd Nat.toDigits_ne_nil
  | cons c t =>
    rw [hd] at hdig hval hall
    have hc := hdig c List.mem_cons_self
    have hskip : (' ' :: c :: t).dropWhile isSpace = c :: t := by
      rw [List.dropWhile_cons, if_pos (by decide), List.dropWhile_cons, if_neg]
      simp [isSpace_of_isDigit hc]
    unfold readUnsigned
    simp only [hskip, sign_of_isDigit hc, hall, hval]
    rw [if_neg (by omega)]
    simp

end TextFile
