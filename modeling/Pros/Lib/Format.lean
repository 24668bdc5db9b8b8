import Pros.Lib.Log
import Pros.Lib.NumeralText

/-!
# The grammar of formats

A format is read as a list of pieces: literal characters, `"%%"`, directives that take an argument each, and at
the first `'%'` followed by anything else the rest of the format as it stands.
-/

namespace Pros

/-- `'%'`. -/
def percentSign : CChar := ⟨0x25, by decide⟩

/-- The directives. -/
inductive Directive where
  | char
  | string
  | decimal
  | hex

/-- The directive of a character behind `'%'`. -/
def Directive.of (c : CChar) : Option Directive :=
  if c.val = 0x63 then some char
  else if c.val = 0x73 then some string
  else if c.val = 0x64 then some decimal
  else if c.val = 0x78 then some hex
  else none

/-- The arguments that a directive takes. -/
def Directive.Takes : Directive → VaArg → Prop
  | .string, .str _ => True
  | .char, .int _ | .decimal, .int _ | .hex, .int _ => True
  | _, _ => False

/-- The text that a directive makes of its argument. -/
def Directive.text : Directive → VaArg → List U8
  | .char, .int n => [n.setWidth 8]
  | .string, .str s => s.map Subtype.val
  | .decimal, .int n => numeralText 10 n.toNat
  | .hex, .int n => numeralText 16 n.toNat
  | _, _ => []

/-- The parts of a format. -/
inductive Piece where
  | literal (c : CChar)
  | percent
  | directive (d : Directive)
  | verbatim (rest : CString)

/-- The pieces of a format. -/
def pieces : CString → List Piece
  | [] => []
  | [c] => if c = percentSign then [.verbatim [c]] else [.literal c]
  | c :: d :: rest =>
    if c = percentSign then
      if d = percentSign then .percent :: pieces rest
      else
        match Directive.of d with
        | some k => .directive k :: pieces rest
        | none => [.verbatim (c :: d :: rest)]
    else .literal c :: pieces (d :: rest)

/-- The directives of a format. -/
def directives (ps : List Piece) : List Directive :=
  ps.filterMap fun
    | .directive d => some d
    | _ => none

/-- One argument of the right type for each directive. -/
def Supplies (ps : List Piece) (args : List VaArg) : Prop := List.Forall₂ Directive.Takes (directives ps) args

/-- The text of a format. -/
def output : List Piece → List VaArg → List U8
  | [], _ => []
  | .literal c :: ps, args => c.val :: output ps args
  | .percent :: ps, args => percentSign.val :: output ps args
  | .directive d :: ps, a :: args => d.text a ++ output ps args
  | .directive _ :: ps, [] => output ps []
  | .verbatim rest :: ps, args => rest.map Subtype.val ++ output ps args

end Pros
