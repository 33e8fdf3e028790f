import Ztd.Filedat.Chunk

/-! `escape`, `repeatString` and `chunkdat::strval`. -/

namespace Ztd.Filedat
open Ztd.Lib

/-- Put a backslash before every occurrence of a character. -/
def escape (c : Char) : Text → Text
  | [] => []
  | d :: rest => if d = c then '\\' :: d :: escape c rest else d :: escape c rest

def repeatString (text : Text) : Nat → Text
  | 0 => []
  | count + 1 => text ++ repeatString text count

variable {ι : Type}

namespace Chunk

/-- A printed chunk inside a map or a list: strings stand between quotes. -/
def item (chunk : Chunk ι) (printed : Text) : Text :=
  if chunk.type = .string then '"' :: escape '"' printed ++ ['"'] else printed

mutual
/-- `chunkdat::strval`; the alignment is an `unsigned int`. -/
def strval (alignment : UInt32) (aligner : Text) : Chunk ι → Text
  | .none _ => []
  | .string _ val => val
  | .map _ [] => ['{', '}']
  | .map _ values =>
    ['{', '\n'] ++ strvalValues alignment aligner values ++
      repeatString aligner alignment.toNat ++ ['}']
  | .list _ [] => ['[', ']']
  | .list _ elements =>
    let ret := ['[', '\n'] ++ strvalElements alignment aligner elements
    ret.eraseIdx (ret.length - 2) ++ repeatString aligner alignment.toNat ++ [']']
def strvalValues (alignment : UInt32) (aligner : Text) : List (Text × Chunk ι) → Text
  | [] => []
  | (key, value) :: rest =>
    repeatString aligner (alignment + 1).toNat ++ key ++ [' ', '=', ' '] ++
      item value (strval (alignment + 1) aligner value) ++ ['\n'] ++
      strvalValues alignment aligner rest
def strvalElements (alignment : UInt32) (aligner : Text) : List (Chunk ι) → Text
  | [] => []
  | element :: rest =>
    repeatString aligner (alignment + 1).toNat ++
      item element (strval (alignment + 1) aligner element) ++ [',', '\n'] ++
      strvalElements alignment aligner rest
end

/-- `strval()` with its default arguments. -/
def str (chunk : Chunk ι) : Text := chunk.strval 0 ['\t']

end Chunk

theorem escape_append (c : Char) (left right : Text) :
    escape c (left ++ right) = escape c left ++ escape c right := by
  induction left with
  | nil => rfl
  | cons d rest ih =>
    simp only [List.cons_append, escape, ih]
    split <;> rfl

theorem mem_repeatString {c : Char} {text : Text} {count : Nat}
    (member : c ∈ repeatString text count) : c ∈ text := by
  induction count with
  | zero => simp [repeatString] at member
  | succ count ih =>
    rcases List.mem_append.mp member with first | later
    · exact first
    · exact ih later

end Ztd.Filedat
