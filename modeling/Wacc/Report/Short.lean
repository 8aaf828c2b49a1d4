/-
  The short report: one line a diagnostic.
-/
import Wacc.Diagnostic.Basic
import Wacc.Source.File
import Wacc.Text.Utf8

namespace Wacc.Report

def unlined : Text → Text
  | [] => []
  | b :: rest =>
    if b = '\n'.toUInt8 then ' '.toUInt8 :: unlined rest
    else if b = '\r'.toUInt8 ∧ rest.head? = some '\n'.toUInt8 then unlined rest
    else b :: unlined rest

def oneLine (message : Text) : Text := Utf8.trimSpace (unlined message)

/-- A span in words: its position in the files, or the bare offsets without files. -/
def place (files : Option FileSet) (s : Span) : Text :=
  match files with
  | some fs => fs.describe s
  | none => s.render

def shortLine (files : Option FileSet) (label : Text) (code : Code) (span : Span) (message : Text) :
    Text :=
  label ++ lit " " ++ code.id ++ lit " " ++ place files span ++ lit " " ++ oneLine message

def shortLines (files : Option FileSet) (notes : Bool) (d : Diagnostic) : List Text :=
  shortLine files d.severity.label d.code d.span d.message ::
    if notes then d.notes.map fun n => shortLine files (lit "note") d.code n.span n.message else []

def short (files : Option FileSet) (notes : Bool) (ds : List Diagnostic) : Text :=
  Text.joinWith (lit "\n") (ds.flatMap (shortLines files notes))

def shortListing (files : FileSet) (notes : Bool) (ds : List Diagnostic) : Text :=
  let t := short (some files) notes ds
  if t.isEmpty then t else t ++ lit "\n"

end Wacc.Report
