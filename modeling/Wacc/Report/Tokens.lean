/-
  Token listings: one line a token, or a JSON array.
-/
import Wacc.Token.Scan
import Wacc.Source.File
import Wacc.Text.Json

namespace Wacc.Report

def listed : List Token → List Token
  | [] => []
  | t :: rest => if t.kind = .eof then [t] else t :: listed rest

def lineCol (p : Position) : Text := decimal p.line.toNat ++ lit ":" ++ decimal p.col.toNat

def tokenLine (files : FileSet) (number : Nat) (t : Token) : Text :=
  let (start, stop) := files.resolve t.span
  let name := t.kind.name
  Text.padLeft 3 ' '.toUInt8 (decimal number) ++ lit ": " ++ name ++ Text.blanks (15 - name.length) ++
    (if t.text.isEmpty then [] else lit " " ++ Quoted.quote t.text) ++
    lit " at " ++ lineCol start ++ lit "-" ++ lineCol stop ++ lit "\n"

def tokensPretty (files : FileSet) (ts : List Token) : Text :=
  ((listed ts).zipIdx 1).flatMap fun (t, n) => tokenLine files n t

def spanJson (s : Span) : Json :=
  .obj [(lit "File", .nat s.file.toNat), (lit "Start", .nat s.start.toNat),
    (lit "End", .nat s.stop.toNat)]

def tokenJson (files : FileSet) (t : Token) : Json :=
  let (start, _) := files.resolve t.span
  .obj ([(lit "kind", .str t.kind.name)] ++
    (if t.text.isEmpty then [] else [(lit "text", .str t.text)]) ++
    [(lit "line", .nat start.line.toNat), (lit "col", .nat start.col.toNat),
     (lit "span", spanJson t.span)])

def tokensJson (files : FileSet) (ts : List Token) : Text :=
  (Json.arr ((listed ts).map (tokenJson files))).indented

end Wacc.Report
