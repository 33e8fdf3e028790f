import Ztd.Lib.Text

/-! `ztd::color`: its enumeration, the tables of names and codes, and the lookups. -/

namespace Ztd
open Ztd.Lib

/-- `color` -/
structure Color where
  colorCode : Text
deriving DecidableEq, Repr

namespace Color

/-- `color_name` -/
inductive ColorName where
  | none | white | gray | black | red | green | orange | blue | magenta | cyan
  | bWhite | bLightgray | bGray | bRed | bGreen | bYellow | bBlue | bMagenta | bCyan
  | bold | italic | underline | blink | strike
deriving DecidableEq, Repr

namespace ColorName

/-- `(int) cm` -/
def value : ColorName → Nat
  | .none => 0
  | .white => 1
  | .gray => 2
  | .black => 3
  | .red => 4
  | .green => 5
  | .orange => 6
  | .blue => 7
  | .magenta => 8
  | .cyan => 9
  | .bWhite => 10
  | .bLightgray => 11
  | .bGray => 12
  | .bRed => 13
  | .bGreen => 14
  | .bYellow => 15
  | .bBlue => 16
  | .bMagenta => 17
  | .bCyan => 18
  | .bold => 19
  | .italic => 20
  | .underline => 21
  | .blink => 22
  | .strike => 23

/-- The name of an enumerator in the source. -/
def name : ColorName → Text
  | .none => "none".toList
  | .white => "white".toList
  | .gray => "gray".toList
  | .black => "black".toList
  | .red => "red".toList
  | .green => "green".toList
  | .orange => "orange".toList
  | .blue => "blue".toList
  | .magenta => "magenta".toList
  | .cyan => "cyan".toList
  | .bWhite => "b_white".toList
  | .bLightgray => "b_lightgray".toList
  | .bGray => "b_gray".toList
  | .bRed => "b_red".toList
  | .bGreen => "b_green".toList
  | .bYellow => "b_yellow".toList
  | .bBlue => "b_blue".toList
  | .bMagenta => "b_magenta".toList
  | .bCyan => "b_cyan".toList
  | .bold => "bold".toList
  | .italic => "italic".toList
  | .underline => "underline".toList
  | .blink => "blink".toList
  | .strike => "strike".toList

end ColorName

def bold : String := "\x1b[01m"
def italic : String := "\x1b[03m"
def underline : String := "\x1b[04m"
def blink : String := "\x1b[05m"
def strike : String := "\x1b[09m"
def colorReset : String := "\x1b[0;0m"

def colorCount : Nat := 24

/-- A C string, or a null pointer. -/
abbrev CString := Option Text

/-- An array of C strings. The literals of one initialiser are joined, and what has no
initialiser is a null pointer. -/
def cstringArray (count : Nat) (initialisers : List (List String)) : List CString :=
  initialisers.map (fun literals => some (literals.flatMap String.toList)) ++
    List.replicate (count - initialisers.length) none

/-- No comma stands between the literals `b_cyan` and `bold`. -/
def colorNameIndex : List CString := cstringArray colorCount [
  ["none"],
  ["white"],
  ["gray"],
  ["black"],
  ["red"],
  ["green"],
  ["orange"],
  ["blue"],
  ["magenta"],
  ["cyan"],
  ["b_white"],
  ["b_lightgray"],
  ["b_gray"],
  ["b_red"],
  ["b_green"],
  ["b_yellow"],
  ["b_blue"],
  ["b_magenta"],
  ["b_cyan", "bold"],
  ["italic"],
  ["underline"],
  ["blink"],
  ["strike"]]

def colorIndex : List CString := cstringArray colorCount [
  [colorReset],
  ["\x1b[37m"],
  ["\x1b[90m"],
  ["\x1b[30m"],
  ["\x1b[31m"],
  ["\x1b[32m"],
  ["\x1b[33m"],
  ["\x1b[34m"],
  ["\x1b[35m"],
  ["\x1b[36m"],
  ["\x1b[1;37m"],
  ["\x1b[1;02m"],
  ["\x1b[1;30m"],
  ["\x1b[1;31m"],
  ["\x1b[1;32m"],
  ["\x1b[1;33m"],
  ["\x1b[1;34m"],
  ["\x1b[1;35m"],
  ["\x1b[1;36m"],
  [bold],
  [italic],
  [underline],
  [blink],
  [strike]]

variable {ε : Type}

/-- `table[i]` -/
def element (table : List CString) (i : Nat) : Run ε CString :=
  match table[i]? with
  | some entry => .ok entry
  | none => Run.fault

/-- `operator==(const char*, const std::string&)` -/
def equals (lhs : CString) (rhs : Text) : Run ε Bool :=
  match lhs with
  | some text => .ok (text == rhs)
  | none => Run.fault

/-- `getColorCode(const unsigned int)`; an unsigned index is never negative. -/
def getColorCodeIndex (index : Nat) : Run ε CString :=
  if index ≥ colorCount then .ok (some colorReset.toList) else element colorIndex index

/-- `getColorCode(color_name)` -/
def getColorCodeName (cm : ColorName) : Run ε CString := element colorIndex cm.value

def nameLoop (str : Text) : Nat → Nat → Run ε CString
  | 0, _ => Run.diverged
  | fuel + 1, i =>
    if i < colorCount then do
      let entry ← element colorNameIndex i
      if ← equals entry str then getColorCodeIndex i else nameLoop str fuel (i + 1)
    else pure (some colorReset.toList)

/-- `getColorCode(const std::string&)` -/
def getColorCodeString (str : Text) : Run ε CString := nameLoop str (colorCount + 1) 0

/-- Assign a C string to `color_code`. -/
def assign (code : CString) : Run ε Color :=
  match code with
  | some text => .ok { colorCode := text }
  | none => Run.fault

/-- `setColor(color_name)`, also of the constructor. -/
def setColorName (cm : ColorName) : Run ε Color := getColorCodeName cm >>= assign

/-- `setColor(const std::string&)`, also of the constructor. -/
def setColorString (name : Text) : Run ε Color := getColorCodeString name >>= assign

/-- `code()` -/
def code (color : Color) : Text := cstr color.colorCode

end Color

end Ztd
