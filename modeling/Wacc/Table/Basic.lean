/-
  Symbol tables.

  A table numbers its scopes, variables and functions from one; the number zero stands for none.
  Scope one is the global scope, which holds the variables of the main program.  Every variable
  gets the place that the sum of the sizes before it and its own gives, so the footprint of a scope
  is the offset of its last variable.

  Name lookup goes outwards and ends at the scope of a function, so the variables of the main
  program are not seen in functions.
-/
import Wacc.Ty
import Wacc.Source.Span

namespace Wacc

abbrev ScopeId := UInt32
abbrev VarId := UInt32
abbrev FuncId := UInt32

inductive ScopeKind where
  | invalid
  | global
  | function
  | block
  | other (number : UInt8)
  deriving DecidableEq, Repr, Inhabited

namespace ScopeKind

def ofNumber (n : UInt8) : ScopeKind :=
  match n.toNat with
  | 0 => .invalid
  | 1 => .global
  | 2 => .function
  | 3 => .block
  | _ => .other n

def name : ScopeKind → Text
  | .global => lit "global"
  | .function => lit "function"
  | .block => lit "block"
  | .invalid | .other _ => lit "invalid"

end ScopeKind

/-- A scope: its variables in the order of their declaration, the scopes opened in it, and the
    bytes that its variables take. -/
structure Scope where
  kind : ScopeKind
  parent : ScopeId
  func : FuncId := 0
  span : Span
  vars : List VarId := []
  children : List ScopeId := []
  footprint : UInt32 := 0
  names : List (Text × VarId) := []
  deriving Repr

/-- A declared name.  The offset is the footprint of the scope right after the declaration. -/
structure Variable where
  name : Text
  type : Ty
  scope : ScopeId
  offset : UInt32
  span : Span
  param : Bool := false
  deriving Repr

structure Signature where
  name : Text
  result : Ty
  params : List VarId := []
  scope : ScopeId
  span : Span
  deriving Repr

structure Table where
  scopes : Array Scope
  vars : Array Variable := #[]
  funcs : Array Signature := #[]
  deriving Repr

namespace Table

def global : ScopeId := 1

def empty : Table := { scopes := #[{ kind := .global, parent := 0, span := {} }] }

/-! ## Access by number -/

def index? (id : UInt32) : Option Nat := if id = 0 then none else some (id.toNat - 1)

def scope? (t : Table) (id : ScopeId) : Option Scope := do t.scopes[← index? id]?

def var? (t : Table) (id : VarId) : Option Variable := do t.vars[← index? id]?

def func? (t : Table) (id : FuncId) : Option Signature := do t.funcs[← index? id]?

def funcIds (t : Table) : List FuncId := (List.range t.funcs.size).map fun i => (i + 1).toUInt32

def modifyScope (t : Table) (id : ScopeId) (f : Scope → Scope) : Table :=
  match index? id with
  | none => t
  | some i => { t with scopes := t.scopes.modify i f }

def modifyVar (t : Table) (id : VarId) (f : Variable → Variable) : Table :=
  match index? id with
  | none => t
  | some i => { t with vars := t.vars.modify i f }

def modifyFunc (t : Table) (id : FuncId) (f : Signature → Signature) : Table :=
  match index? id with
  | none => t
  | some i => { t with funcs := t.funcs.modify i f }

/-! ## Declaring -/

/-- The outcome of a declaration: the number under which the name is known, and whether it is
    new. -/
structure Declared where
  id : UInt32
  fresh : Bool
  deriving DecidableEq, Repr

def newScope (t : Table) (kind : ScopeKind) (parent : ScopeId) (span : Span) (func : FuncId) :
    ScopeId × Table :=
  let id := (t.scopes.size + 1).toUInt32
  let t := { t with scopes := t.scopes.push { kind, parent, span, func } }
  (id, t.modifyScope parent fun s => { s with children := s.children ++ [id] })

def newBlock (t : Table) (parent : ScopeId) (span : Span) : ScopeId × Table :=
  t.newScope .block parent span 0

/-- Declare a variable in a scope that exists; a name that the scope has already is refused. -/
def declareIn (t : Table) (id : ScopeId) (s : Scope) (name : Text) (type : Ty) (span : Span)
    (param : Bool) : Declared × Table :=
  match s.names.lookup name with
  | some old => (⟨old, false⟩, t)
  | none =>
    let offset := s.footprint + type.size
    let var := (t.vars.size + 1).toUInt32
    let t := { t with vars := t.vars.push { name, type, scope := id, offset, span, param } }
    (⟨var, true⟩, t.modifyScope id fun s =>
      { s with vars := s.vars ++ [var], footprint := offset, names := s.names ++ [(name, var)] })

def declare (t : Table) (scope : ScopeId) (name : Text) (type : Ty) (span : Span) :
    Except Fault (Declared × Table) :=
  match t.scope? scope with
  | none => .error (.noScope scope)
  | some s => .ok (t.declareIn scope s name type span false)

def lookupFunc (t : Table) (name : Text) : Option FuncId :=
  (t.funcs.toList.findIdx? (·.name == name)).map fun i => (i + 1).toUInt32

/-- Declare a function and open its scope; a name that is taken is refused. -/
def declareFunc (t : Table) (name : Text) (result : Ty) (span : Span) : Declared × Table :=
  match t.lookupFunc name with
  | some old => (⟨old, false⟩, t)
  | none =>
    let id := (t.funcs.size + 1).toUInt32
    let (scope, t) := t.newScope .function global span id
    (⟨id, true⟩, { t with funcs := t.funcs.push { name, result, scope, span } })

def bindParam (t : Table) (func : FuncId) (name : Text) (type : Ty) (span : Span) :
    Except Fault (Declared × Table) :=
  match t.func? func with
  | none => .error (.noFunction func)
  | some f =>
    match t.scope? f.scope with
    | none => .error (.noScope f.scope)
    | some s =>
      let (d, t) := t.declareIn f.scope s name type span true
      if d.fresh then .ok (d, t.modifyFunc func fun f => { f with params := f.params ++ [d.id] })
      else .ok (d, t)

/-! ## Looking outwards -/

/-- The scopes from `id` outwards, up to and including the first one that satisfies `last`.  No
    table has a longer path than it has scopes. -/
def outwards (t : Table) (last : Scope → Bool) : Nat → ScopeId → List (ScopeId × Scope)
  | 0, _ => []
  | fuel + 1, id =>
    match t.scope? id with
    | none => []
    | some s => (id, s) :: if last s then [] else t.outwards last fuel s.parent

def visible (t : Table) (scope : ScopeId) : List (ScopeId × Scope) :=
  t.outwards (·.kind == .function) t.scopes.size scope

def lookup (t : Table) (scope : ScopeId) (name : Text) : Option VarId :=
  (t.visible scope).findSome? fun (_, s) => s.names.lookup name

def lookupLocal (t : Table) (scope : ScopeId) (name : Text) : Option VarId := do
  (← t.scope? scope).names.lookup name

def enclosingFunc (t : Table) (scope : ScopeId) : FuncId :=
  match (t.visible scope).find? fun (_, s) => s.kind == .function with
  | some (_, s) => s.func
  | none => 0

/-- The scopes whose variables lie in one stack frame: outwards up to the scope of the function or
    the global scope, the innermost first. -/
def frameChain (t : Table) (scope : ScopeId) : List ScopeId :=
  (t.outwards (fun s => s.kind == .function || s.kind == .global) t.scopes.size scope).map (·.1)

end Table

end Wacc
