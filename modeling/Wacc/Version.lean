/-
  The version of the compiler and the banner that shows it.
-/
import Wacc.Report.Style
import Wacc.Text.Json

namespace Wacc

/-- A build of the compiler; commit and date are empty where they are not known. -/
structure Version where
  version : Text
  commit : Text := []
  date : Text := []
  deriving DecidableEq, Repr

namespace Version

def current : Text := lit "0.3.0-dev"

def build : Version := { version := current }

def startsSuffix (b : UInt8) : Bool := b == '-'.toUInt8 || b == '+'.toUInt8

/-- A version with its three numbers in colours.  The last one takes all that is left before the
    suffix; a version without three numbers stays as it is. -/
def colored (wanted : Bool) (v : Text) : Text :=
  let core := v.takeWhile fun b => !startsSuffix b
  let rest := v.dropWhile fun b => !startsSuffix b
  match core.splitOn '.'.toUInt8 with
  | a :: b :: c :: more =>
    (Style.strong Style.yellow).paint wanted a ++ lit "." ++
      (Style.strong Style.green).paint wanted b ++ lit "." ++
      (Style.strong Style.blue).paint wanted (Text.joinWith (lit ".") (c :: more)) ++ rest
  | _ => v

def bannerLine (label value : Text) : Text := if value.isEmpty then [] else label ++ value ++ lit "\n"

def banner (wanted : Bool) (v : Version) : Text :=
  lit "waccc " ++ colored wanted v.version ++ lit "\n" ++ bannerLine (lit "commit: ") v.commit ++
    bannerLine (lit "built:  ") v.date ++ lit "target: arm-linux-gnueabi (ARMv6, AAPCS)\n"

def optional (name value : Text) : List (Text × Json) :=
  if value.isEmpty then [] else [(name, .str value)]

def json (v : Version) : Json :=
  .obj ([(lit "tool", .str (lit "waccc")), (lit "version", .str v.version)] ++
    optional (lit "git_commit") v.commit ++ optional (lit "build_date") v.date)

end Version

end Wacc
