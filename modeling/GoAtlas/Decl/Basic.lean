import GoAtlas.Table

/-!
# Declarations of a Go file

One Go file declares types, constants and functions and imports packages.  The
types below are what is left of its text once it has been read: type expressions
without array lengths, initializers reduced to the literals, names and calls in
them, and one declaration per declared name.

A type expression that the model has no counterpart for is kept as `unsupported`
with a name for its kind, so reading never fails on it; whether that matters is
decided where the type is used.
-/

namespace GoAtlas

/-- The direction of a channel. -/
inductive ChanDir where
  | both
  | send
  | recv
deriving DecidableEq, Repr

/-- A struct field, parameter, result or interface element over a kind of type
expressions `τ`. -/
structure Member (τ : Type) where
  /-- The declared names; none for embedded fields and unnamed parameters. -/
  names : List String
  type : τ
  /-- The tag literal as written, quotes included. -/
  tag : Option String := none
deriving Repr

/-- A type expression. -/
inductive TypeExpr where
  | ident (name : String)
  /-- The name `name` of the package imported as `package`. -/
  | selector (package name : String)
  /-- An array or slice; the length is not recorded. -/
  | array (elem : TypeExpr)
  | map (key value : TypeExpr)
  | pointer (target : TypeExpr)
  /-- A struct body, `incomplete` if it could not be read to its end. -/
  | struct (fields : List (Member TypeExpr)) (incomplete : Bool)
  /-- Methods have one name and a `func` type, embedded elements have no name. -/
  | interface (elements : List (Member TypeExpr))
  | func (params results : List (Member TypeExpr))
  | chan (dir : ChanDir) (elem : TypeExpr)
  | ellipsis (elem : TypeExpr)
  /-- An expression of a kind that is not modelled. -/
  | unsupported (kind : String)
deriving Repr

instance : Inhabited TypeExpr := ⟨.ident ""⟩

/-- A field, parameter, result or interface element of a Go file. -/
abbrev FieldDecl := Member TypeExpr

theorem Member.sizeOf_type_lt {member : FieldDecl} {members : List FieldDecl}
    (hmember : member ∈ members) : sizeOf member.type < sizeOf members := by
  have hsize := List.sizeOf_lt_of_mem hmember
  obtain ⟨names, type, tag⟩ := member
  simp only [Member.mk.sizeOf_spec] at hsize
  simp only
  omega

/-- The initializer of a constant. -/
inductive ValueExpr where
  /-- A literal as written. -/
  | literal (text : String)
  | ident (name : String)
  | iota
  | selector (package name : String)
  | call (callee : ValueExpr) (args : List ValueExpr)
  /-- Any other expression, with its operands in order. -/
  | compound (operands : List ValueExpr)
deriving Repr

instance : Inhabited ValueExpr := ⟨.iota⟩

/-- A declared type. -/
structure TypeDecl where
  name : String
  expr : TypeExpr
deriving Repr

/-- One name of a constant declaration.  Names declared together share the type
and the list of initializers. -/
structure ConstDecl where
  name : String
  type : Option TypeExpr
  /-- Empty where the initializers of the preceding constant are repeated. -/
  values : List ValueExpr
deriving Repr

/-- A declared function. -/
structure FuncDecl where
  name : String
  params : List FieldDecl
  results : List FieldDecl
deriving Repr

/-- A declaration. -/
inductive Decl where
  | type (decl : TypeDecl)
  | const (decl : ConstDecl)
  | func (decl : FuncDecl)
deriving Repr

/-- An import as written. -/
structure ImportDecl where
  /-- The import path, quotes included. -/
  path : String
  /-- The local name, if one is given. -/
  localName : Option String
deriving DecidableEq, Repr

/-- What one Go file declares. -/
structure GoFile where
  /-- The declared package name, empty if there is none. -/
  package : String := ""
  imports : List ImportDecl := []
  /-- The declarations in the order of the text. -/
  decls : List Decl := []
deriving Repr

/-- The files of one directory that declare the same package. -/
structure Package where
  name : String
  files : Table GoFile
deriving Repr

namespace Package

/-- Adds a file to the package it declares. -/
def addFile (packages : Table Package) (fileName : String) (file : GoFile) : Table Package :=
  let known := (packages.get? file.package).getD { name := file.package, files := Table.empty }
  packages.insert file.package { known with files := known.files.insert fileName file }

/-- The packages of some files, each given with its name; of two files with one name in
a package the later one stays. -/
def ofFiles (files : List (String × GoFile)) : Table Package :=
  files.foldl (fun packages entry => addFile packages entry.1 entry.2) Table.empty

end Package

namespace Decl

/-- The declared name. -/
def name : Decl → String
  | .type decl => decl.name
  | .const decl => decl.name
  | .func decl => decl.name

end Decl

namespace TypeExpr

/-- A name for the kind of a type expression. -/
def kindName : TypeExpr → String
  | .ident _ => "ident"
  | .selector _ _ => "selector"
  | .array _ => "array"
  | .map _ _ => "map"
  | .pointer _ => "pointer"
  | .struct _ _ => "struct"
  | .interface _ => "interface"
  | .func _ _ => "func"
  | .chan _ _ => "chan"
  | .ellipsis _ => "ellipsis"
  | .unsupported kind => kind

/-- The name that an embedded field of this type goes by: the last name of a
named type under any number of pointers. -/
def innermost? : TypeExpr → Option String
  | .ident name => some name
  | .selector _ name => some name
  | .pointer target => target.innermost?
  | _ => none

end TypeExpr

namespace ValueExpr

mutual

/-- The first literal of an initializer, from left to right. -/
def firstLiteral? : ValueExpr → Option String
  | .literal text => some text
  | .call callee args =>
      match callee.firstLiteral? with
      | some text => some text
      | none => firstLiteralIn? args
  | .compound operands => firstLiteralIn? operands
  | .ident _ => none
  | .iota => none
  | .selector _ _ => none

/-- The first literal of a list of initializers. -/
def firstLiteralIn? : List ValueExpr → Option String
  | [] => none
  | value :: rest =>
      match value.firstLiteral? with
      | some text => some text
      | none => firstLiteralIn? rest

end

mutual

/-- The first call of an initializer that is not inside another call: its callee
and its arguments. -/
def firstCall? : ValueExpr → Option (ValueExpr × List ValueExpr)
  | .call callee args => some (callee, args)
  | .compound operands => firstCallIn? operands
  | .literal _ => none
  | .ident _ => none
  | .iota => none
  | .selector _ _ => none

/-- The first call in a list of initializers. -/
def firstCallIn? : List ValueExpr → Option (ValueExpr × List ValueExpr)
  | [] => none
  | value :: rest =>
      match value.firstCall? with
      | some found => some found
      | none => firstCallIn? rest

end

end ValueExpr

end GoAtlas
