/-!
# How texts begin

Scans look at the beginning of a text: the characters that are wanted there, or one character that
passes a test.
-/

namespace Formwork

/-- What remains of `text` after the characters `wanted`, if it starts with them. -/
def stripChars? : List Char → List Char → Option (List Char)
  | [], text => some text
  | _ :: _, [] => none
  | w :: wanted, c :: text => if w = c then stripChars? wanted text else none

theorem stripChars?_eq_some {wanted text rest : List Char} :
    stripChars? wanted text = some rest ↔ text = wanted ++ rest := by
  fun_induction stripChars? wanted text with
  | case1 text => simp [eq_comm]
  | case2 => simp
  | case3 w wanted text ih => simpa using ih
  | case4 w wanted c text differs => simpa using fun same => absurd same.symm differs

/-- Whether the next character, if there is one, passes a test. -/
def nextIs (test : Char → Bool) : List Char → Bool
  | [] => false
  | c :: _ => test c

theorem nextIs_append {test : Char → Bool} {word : List Char} (starts : nextIs test word = true)
    (after : List Char) : nextIs test (word ++ after) = true := by
  cases word with
  | nil => simp [nextIs] at starts
  | cons c word => exact starts

theorem nextIs_dropWhile (test : Char → Bool) (text : List Char) :
    nextIs test (text.dropWhile test) = false := by
  have fails := List.head?_dropWhile_not test text
  cases dropped : text.dropWhile test with
  | nil => rfl
  | cons c rest =>
      rw [dropped] at fails
      simpa [nextIs] using fails

end Formwork
