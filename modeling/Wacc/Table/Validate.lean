/-
  Consistency of symbol tables.
-/
import Wacc.Table.Basic

namespace Wacc.Table

inductive Defect where
  | invalidKind (scope : ScopeId)
  | invalidParent (scope parent : ScopeId)
  | noParent (kind : ScopeKind) (scope : ScopeId)
  | invalidVariable (scope : ScopeId) (var : VarId)
  | declaredTwice (scope : ScopeId) (name : Text)
  | wrongOffset (name : Text) (scope : ScopeId) (offset want : UInt32)
  | wrongOwner (name : Text) (owner scope : ScopeId)
  | wrongFootprint (scope : ScopeId) (footprint sum : UInt32)
  | brokenScope (func : Text) (scope : ScopeId)
  deriving DecidableEq, Repr

def Defect.message : Defect → Text
  | .invalidKind s => lit "scope " ++ decimal s.toNat ++ lit " has invalid kind"
  | .invalidParent s p =>
    lit "scope " ++ decimal s.toNat ++ lit " has invalid parent " ++ decimal p.toNat
  | .noParent k s => k.name ++ lit " scope " ++ decimal s.toNat ++ lit " has no parent"
  | .invalidVariable s v =>
    lit "scope " ++ decimal s.toNat ++ lit " lists invalid variable " ++ decimal v.toNat
  | .declaredTwice s n => lit "scope " ++ decimal s.toNat ++ lit " declares " ++ Quoted.quote n ++ lit " twice"
  | .wrongOffset n s o w =>
    lit "variable " ++ Quoted.quote n ++ lit " in scope " ++ decimal s.toNat ++ lit " has offset " ++
      decimal o.toNat ++ lit ", want " ++ decimal w.toNat
  | .wrongOwner n o s =>
    lit "variable " ++ Quoted.quote n ++ lit " owned by scope " ++ decimal o.toNat ++
      lit " but listed in " ++ decimal s.toNat
  | .wrongFootprint s f sum =>
    lit "scope " ++ decimal s.toNat ++ lit " footprint " ++ decimal f.toNat ++
      lit ", variables sum to " ++ decimal sum.toNat
  | .brokenScope f s => lit "function " ++ Quoted.quote f ++ lit " has broken scope " ++ decimal s.toNat

def linkDefects (t : Table) (id : ScopeId) (s : Scope) : List Defect :=
  (if s.kind = .invalid then [.invalidKind id] else []) ++
  (if s.parent ≠ 0 then
    if t.scopes.size < s.parent.toNat || s.parent == id then [.invalidParent id s.parent] else []
  else if s.kind ≠ .global then [.noParent s.kind id]
  else [])

/-- Defects of the listed variables, given the names and the sum of the sizes before them; a
    defect of the footprint last. -/
def varDefects (t : Table) (id : ScopeId) (footprint : UInt32) (seen : List Text) (sum : UInt32) :
    List VarId → List Defect
  | [] => if sum ≠ footprint then [.wrongFootprint id footprint sum] else []
  | v :: rest =>
    match t.var? v with
    | none => .invalidVariable id v :: t.varDefects id footprint seen sum rest
    | some x =>
      let sum := sum + x.type.size
      (if seen.contains x.name then [.declaredTwice id x.name] else []) ++
      (if x.offset ≠ sum then [.wrongOffset x.name id x.offset sum] else []) ++
      (if x.scope ≠ id then [.wrongOwner x.name x.scope id] else []) ++
      t.varDefects id footprint (x.name :: seen) sum rest

def funcDefects (t : Table) (id : FuncId) (f : Signature) : List Defect :=
  match t.scope? f.scope with
  | some s => if s.kind = .function ∧ s.func = id then [] else [.brokenScope f.name f.scope]
  | none => [.brokenScope f.name f.scope]

def defects (t : Table) : List Defect :=
  ((t.scopes.toList.zipIdx 1).flatMap fun (s, i) =>
    t.linkDefects i.toUInt32 s ++ t.varDefects i.toUInt32 s.footprint [] 0 s.vars) ++
  (t.funcs.toList.zipIdx 1).flatMap fun (f, i) => t.funcDefects i.toUInt32 f

end Wacc.Table
