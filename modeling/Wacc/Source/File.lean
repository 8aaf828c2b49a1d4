/-
  Source files and positions.

  A `File` holds bytes; `FileSet` numbers files from zero and remembers the latest one of each
  path.  A position is a line and a column, both from one, the column counted in bytes.
-/
import Wacc.Source.Span
import Wacc.Source.Path

namespace Wacc

structure Position where
  line : UInt32 := 0
  col : UInt32 := 0
  deriving DecidableEq, Repr, Inhabited

structure File where
  id : UInt32
  path : Text
  content : Text
  flags : UInt8
  deriving DecidableEq, Repr

namespace File

def virtual : UInt8 := 1

def hadMark : UInt8 := 2

def changedLineEnds : UInt8 := 4

def composed : UInt8 := 8

def newlinesFrom (off : UInt32) : Text → List UInt32
  | [] => []
  | b :: rest =>
    if b = '\n'.toUInt8 then off :: newlinesFrom (off + 1) rest else newlinesFrom (off + 1) rest

def newlines (f : File) : List UInt32 := newlinesFrom 0 f.content

def positionIn (newlines : List UInt32) (off : UInt32) : Position :=
  let before := newlines.takeWhile (· < off)
  let start := match before.getLast? with
    | some nl => nl + 1
    | none => 0
  ⟨(before.length + 1).toUInt32, off - start + 1⟩

def position (f : File) (off : UInt32) : Position := positionIn f.newlines off

def slice (f : File) (start stop : UInt32) : Text :=
  (f.content.drop start.toNat).take (stop.toNat - start.toNat)

def lineStart? (f : File) (n : Nat) : Option UInt32 :=
  match n with
  | 0 => none
  | 1 => some 0
  | k + 2 => (f.newlines[k]?).map (· + 1)

def line (f : File) (n : UInt32) : Text :=
  match f.lineStart? n.toNat with
  | none => []
  | some start =>
    let stop := (f.newlines[n.toNat - 1]?).getD f.content.length.toUInt32
    if stop < start then [] else f.slice start stop

def baseName (f : File) : Text := Path.base f.path

end File

structure FileSet where
  files : Array File := #[]
  deriving Repr

namespace FileSet

def add (s : FileSet) (path content : Text) (flags : UInt8) : UInt32 × FileSet :=
  let id := s.files.size.toUInt32
  (id, ⟨s.files.push ⟨id, Path.clean path, content, flags⟩⟩)

def addVirtual (s : FileSet) (path content : Text) : UInt32 × FileSet :=
  s.add path content File.virtual

def get? (s : FileSet) (id : UInt32) : Option File := s.files[id.toNat]?

def latest? (s : FileSet) (path : Text) : Option UInt32 :=
  (s.files.toList.reverse.find? (·.path == Path.clean path)).map (·.id)

def resolve (s : FileSet) (sp : Span) : Position × Position :=
  match s.get? sp.file with
  | none => ({}, {})
  | some f =>
    let nl := f.newlines
    (File.positionIn nl sp.start, File.positionIn nl sp.stop)

def describe (s : FileSet) (sp : Span) : Text :=
  match s.get? sp.file with
  | none => lit "?"
  | some f =>
    let p := f.position sp.start
    f.path ++ lit ":" ++ decimal p.line.toNat ++ lit ":" ++ decimal p.col.toNat

end FileSet

end Wacc
