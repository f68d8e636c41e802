import GoAtlas.Collect.Constant
import GoAtlas.Decl.Role
import GoAtlas.GoType.Resolve
import GoAtlas.Tag
import GoAtlas.World.Basic
import GoAtlas.World.Diagnostic

/-!
# Collecting what a file contributes

A `Collector` holds the model of one file while its declarations are taken in one
after another.  Every operation gives a result and the collector after it, also
when it fails, because what a failing declaration has done before its failure
(marks on imports, reports on tags) stays.

Constants may come before the alias they enumerate.  They are numbered, wait in
`file.pending` with their declarations in `waiting`, and move to the alias when it
is declared, so a file says the same wherever its aliases stand.
-/

namespace GoAtlas

/-- The model of a file while it is being collected. -/
structure Collector where
  file : FileModel
  diagnostics : List Diagnostic := []
  /-- The declarations behind `file.pending`, each under the number of its
  constant. -/
  waiting : List (Nat × ConstDecl) := []
  /-- The number of the last constant recorded. -/
  lastSeq : Nat := 0
deriving Repr

/-- What a file contributes and what was left out. -/
structure Collected where
  file : FileModel
  diagnostics : List Diagnostic
deriving Repr

/-- Where a constant ended up. -/
inductive Placement where
  /-- With an alias declared before it. -/
  | attached
  /-- Waiting for its alias. -/
  | pending
  /-- Nowhere. -/
  | skipped
deriving DecidableEq, Repr

namespace Collector

/-- A collector that has taken in the imports of a file. -/
def start (name : String) (imports : List ImportDecl) : Except Fault Collector :=
  match ImportTable.ofDecls imports with
  | .error fault => .error fault
  | .ok imports => .ok { file := { name, imports } }

/-- Replaces the table of imports. -/
def withImports (c : Collector) (imports : ImportTable) : Collector :=
  { c with file := { c.file with imports } }

/-- Adds a report about this file. -/
def report (c : Collector) (subject : String) (kind : DiagnosticKind) (message : String) :
    Collector :=
  { c with diagnostics := c.diagnostics ++ [⟨c.file.name, subject, kind, message⟩] }

/-! ## Structs and interfaces -/

/-- Reads the tag of a field of the struct `owner` and reports its malformed
pairs. -/
def readTags (c : Collector) (owner : String) (tag : Option String) :
    Except Fault (Table (List String)) × Collector :=
  match tag with
  | none => (.ok Table.empty, c)
  | some literal =>
      match Tags.read literal with
      | .error fault => (.error fault, c)
      | .ok tags =>
          let c := tags.malformed.foldl (fun c bad =>
            c.report (owner ++ "." ++ bad.key) .malformedTag
              ("scan tags failure " ++ bad.raw ++ ": " ++ bad.reason.message)) c
          (.ok tags.values, c)

/-- The names under which a member declares fields of the struct `owner`, and
whether they are embedded. -/
def fieldNames (owner : String) (member : FieldDecl) : Except Fault (List String × Bool) :=
  match member.names with
  | [] =>
      match member.type.innermost? with
      | some name => .ok ([name], true)
      | none => .error (.missingEmbeddedName (member.type.kindName ++ " in " ++ owner))
  | names => .ok (names, false)

/-- The fields that one member of the struct `owner` declares, in order. -/
def memberFields (c : Collector) (owner : String) (member : FieldDecl) :
    Except Fault (List StructField) × Collector :=
  match member.type.resolve c.file.imports with
  | (.error fault, imports) => (.error fault, c.withImports imports)
  | (.ok type, imports) =>
      match (c.withImports imports).readTags owner member.tag with
      | (.error fault, c) => (.error fault, c)
      | (.ok tags, c) =>
          match fieldNames owner member with
          | .error fault => (.error fault, c)
          | .ok (names, embedded) => (.ok (names.map fun name => ⟨name, tags, type, embedded⟩), c)

/-- The fields that the members of the struct `owner` declare after `fields`; of
two fields of one name the later one stays. -/
def structFields (c : Collector) (owner : String) (fields : Table StructField) :
    List FieldDecl → Except Fault (Table StructField) × Collector
  | [] => (.ok fields, c)
  | member :: rest =>
      match c.memberFields owner member with
      | (.error fault, c) => (.error fault, c)
      | (.ok new, c) =>
          c.structFields owner
            (new.foldl (fun fields field => fields.insert field.name field) fields) rest

/-- Takes in a struct, in place of an earlier one of its name. -/
def addStruct (c : Collector) (decl : TypeDecl) : Except Fault StructModel × Collector :=
  match decl.expr with
  | .struct _ true => (.error (.incompleteStruct decl.name), c)
  | .struct members false =>
      match c.structFields decl.name Table.empty members with
      | (.error fault, c) => (.error fault, c)
      | (.ok fields, c) =>
          let model : StructModel := ⟨decl.name, fields⟩
          (.ok model, { c with
            file := { c.file with structs := c.file.structs.insert decl.name model } })
  | expr =>
      (.error (.unsupportedType (decl.name ++ " is a " ++ expr.kindName ++ ", not a struct")), c)

/-- Takes in an interface. -/
def addInterface (c : Collector) (decl : TypeDecl) : InterfaceModel × Collector :=
  let model : InterfaceModel := ⟨decl.name⟩
  (model, { c with
    file := { c.file with interfaces := c.file.interfaces.insert decl.name model } })

/-! ## Aliases and their values -/

/-- Records what an alias stands for.  An alias declared before keeps its values and
changes only its target; a new one takes over the constants waiting for it. -/
def placeAlias (c : Collector) (name : String) (target : GoType) : Alias × Collector :=
  match c.file.aliases.get? name with
  | some known =>
      let changed := { known with target }
      (changed, { c with
        file := { c.file with aliases := c.file.aliases.insert name changed } })
  | none =>
      let (matched, pending) := c.file.pending.partition (·.typeName == name)
      let taken := matched.map (·.seq)
      let new : Alias := {
        name
        target
        candidates := matched
        sources := matched.filterMap fun value => c.waiting.lookup value.seq }
      (new, { c with
        file := { c.file with
          aliases := c.file.aliases.insert name new
          pending }
        waiting := c.waiting.filter fun entry => !taken.contains entry.1 })

/-- Takes in an alias. -/
def addAlias (c : Collector) (decl : TypeDecl) : Except Fault Alias × Collector :=
  match decl.expr.resolve c.file.imports with
  | (.error fault, imports) => (.error fault, c.withImports imports)
  | (.ok target, imports) =>
      let (placed, c) := (c.withImports imports).placeAlias decl.name target
      (.ok placed, c)

/-- Records a value that a constant enumerates. -/
def addValue (c : Collector) (decl : ConstDecl) (typeName literal : String) :
    Placement × Collector :=
  let seq := c.lastSeq + 1
  let value : AliasValue := ⟨typeName, decl.name, literal, seq⟩
  match c.file.aliases.get? typeName with
  | some known =>
      let extended := { known with
        candidates := known.candidates ++ [value]
        sources := known.sources ++ [decl] }
      (.attached, { c with
        file := { c.file with aliases := c.file.aliases.insert typeName extended }
        lastSeq := seq })
  | none =>
      (.pending, { c with
        file := { c.file with pending := c.file.pending ++ [value] }
        waiting := c.waiting ++ [(seq, decl)]
        lastSeq := seq })

/-- Takes in a constant. -/
def addConst (c : Collector) (decl : ConstDecl) : Placement × Collector :=
  match decl.reading with
  | .enumerates typeName literal => c.addValue decl typeName literal
  | .unrelated => (.skipped, c)
  | .complex message => (.skipped, c.report decl.name .complexConstant message)

/-! ## Whole files -/

/-- Drops the value of a result. -/
def done {α : Type} : Except Fault α × Collector → Except Fault Unit × Collector
  | (.ok _, c) => (.ok (), c)
  | (.error fault, c) => (.error fault, c)

/-- Takes in a declaration in its role. -/
def add (c : Collector) (decl : Decl) : Except Fault Unit × Collector :=
  match decl.role?, decl with
  | some .struct, .type decl => done (c.addStruct decl)
  | some .interface, .type decl => (.ok (), (c.addInterface decl).2)
  | some .alias, .type decl => done (c.addAlias decl)
  | some .aliasValue, .const decl => (.ok (), (c.addConst decl).2)
  | _, _ => (.ok (), c)

/-- Takes in declarations up to the first that fails. -/
def addAll (c : Collector) : List Decl → Except Fault Unit × Collector
  | [] => (.ok (), c)
  | decl :: rest =>
      match c.add decl with
      | (.error fault, c) => (.error fault, c)
      | (.ok (), c) => c.addAll rest

/-- Closes the collection: the values of each alias come in the order of their
numbers. -/
def finish (c : Collector) : Collected where
  file := { c.file with
    aliases := c.file.aliases.map fun known =>
      { known with candidates := known.candidates.mergeSort fun a b => a.seq ≤ b.seq } }
  diagnostics := c.diagnostics

end Collector

/-- What a file contributes in types. -/
def GoFile.collect (name : String) (file : GoFile) : Except Fault Collected :=
  match Collector.start name file.imports with
  | .error fault => .error fault
  | .ok c =>
      match c.addAll file.decls with
      | (.error fault, _) => .error fault
      | (.ok (), c) => .ok c.finish

end GoAtlas
