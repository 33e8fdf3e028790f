import Ztd.Lib.Run
import Mathlib.Algebra.Group.Nat.Defs

/-! Strings of characters with a terminating NUL, as C++ reads them. -/

namespace Ztd.Lib

/-- A `std::string` as its characters; NUL may occur anywhere. -/
abbrev Text := List Char

def nul : Char := '\x00'

/-- `text[index]`: the index `size` holds the terminating NUL, and what lies
behind it is not part of the string. -/
def charAt {ε : Type} (text : Text) (index : Nat) : Run ε Char :=
  if inside : index < text.length then .ok text[index]
  else if index = text.length then .ok nul
  else Run.fault

/-- The string a C string denotes ends at the first NUL. -/
def cstr (text : Text) : Text := text.takeWhile (· != nul)

variable {ε : Type}

@[simp] theorem charAt_append (before : Text) (c : Char) (after : Text) :
    (charAt (before ++ c :: after) before.length : Run ε Char) = .ok c := by
  simp [charAt]

@[simp] theorem charAt_length (text : Text) :
    (charAt text text.length : Run ε Char) = .ok nul := by
  simp [charAt]

theorem charAt_of_lt {text : Text} {index : Nat} (inside : index < text.length) :
    (charAt text index : Run ε Char) = .ok text[index] := by
  simp [charAt, inside]

/-- What a text holds from an index on. -/
structure At (str : Text) (index : Nat) (text : Text) : Prop where
  size : index + text.length = str.length
  rest : str.drop index = text

namespace At
variable {str text : Text} {index : Nat} {c d : Char}

theorem start (str : Text) : At str 0 str := ⟨by simp, rfl⟩

theorem le (at_ : At str index text) : index ≤ str.length := by
  have size := at_.size
  omega

theorem lt (at_ : At str index (c :: text)) : index < str.length := by
  have size := at_.size
  simp only [List.length_cons] at size
  omega

theorem eq_length (at_ : At str index []) : index = str.length := at_.size

theorem append {first : Text} (at_ : At str index (first ++ text)) :
    At str (index + first.length) text := by
  have size := at_.size
  refine ⟨by simp only [List.length_append] at size; omega, ?_⟩
  rw [← List.drop_drop, at_.rest, List.drop_left]

theorem next (at_ : At str index (c :: text)) : At str (index + 1) text :=
  append (show At str index ([c] ++ text) from at_)

theorem charAt (at_ : At str index (c :: text)) : (charAt str index : Run ε Char) = .ok c := by
  have found : (str.drop index)[0]? = str[index + 0]? := List.getElem?_drop
  rw [at_.rest, List.getElem?_cons_zero, Nat.add_zero] at found
  rw [charAt_of_lt at_.lt, (List.getElem?_eq_some_iff.mp found.symm).2]

theorem charAt_end (at_ : At str index []) : (Lib.charAt str index : Run ε Char) = .ok nul := by
  rw [at_.eq_length, charAt_length]

/-- Taking a text off in front leaves a shorter one. -/
theorem take (at_ : At str index text) : str.take index ++ text = str := by
  rw [← at_.rest, List.take_append_drop]

end At

end Ztd.Lib
