import Broom.Core.OrderedMap
import Broom.Core.SlashPath

/-!
# Parsed Go packages

The syntax trees of a package as far as the policy generator looks at them, and the maps that
it collects from the declarations. A node of another kind has only its kind and its children.
-/

namespace Broom.Tools

open Broom.Core

inductive Node
  | ident (name : String)
  /-- A string literal, with the string that it denotes. -/
  | string (value : String)
  | star (x : Node)
  | selector (x : Node) (sel : String)
  | index (x index : Node)
  | compositeLit (type : Option Node) (elts : List Node)
  | keyValue (key value : Node)
  | call (func : Node) (args : List Node)
  | assign (lhs rhs : List Node)
  | other (kind : String) (children : List Node)

mutual

/-- The nodes of a tree, each before its children. -/
def Node.nodes : Node → List Node
  | .ident name => [.ident name]
  | .string value => [.string value]
  | .star x => .star x :: x.nodes
  | .selector x sel => .selector x sel :: (x.nodes ++ [.ident sel])
  | .index x i => .index x i :: (x.nodes ++ i.nodes)
  | .compositeLit none elts => .compositeLit none elts :: nodesOf elts
  | .compositeLit (some t) elts => .compositeLit (some t) elts :: (t.nodes ++ nodesOf elts)
  | .keyValue k v => .keyValue k v :: (k.nodes ++ v.nodes)
  | .call f args => .call f args :: (f.nodes ++ nodesOf args)
  | .assign lhs rhs => .assign lhs rhs :: (nodesOf lhs ++ nodesOf rhs)
  | .other kind children => .other kind children :: nodesOf children

/-- The nodes of several trees. -/
def nodesOf : List Node → List Node
  | [] => []
  | n :: ns => n.nodes ++ nodesOf ns

end

/-- Go's name for the type of a node. -/
def Node.kind : Node → String
  | .ident _ => "*ast.Ident"
  | .string _ => "*ast.BasicLit"
  | .star _ => "*ast.StarExpr"
  | .selector _ _ => "*ast.SelectorExpr"
  | .index _ _ => "*ast.IndexExpr"
  | .compositeLit _ _ => "*ast.CompositeLit"
  | .keyValue _ _ => "*ast.KeyValueExpr"
  | .call _ _ => "*ast.CallExpr"
  | .assign _ _ => "*ast.AssignStmt"
  | .other kind _ => kind

def typeName : Node → String
  | .ident name => name
  | .star x => "*" ++ typeName x
  | .selector x sel => typeName x ++ "." ++ sel
  | n => n.kind

/-! ## Declarations -/

/-- An element of an interface; the types of a method's parameters are those of the entries of
its list, each of which may name several parameters. -/
inductive InterfaceElem
  | method (name : String) (params : List Node)
  | embedded (type : Node)

inductive GoSpec
  | value (names : List String) (values : List Node)
  /-- A type that is an interface. -/
  | interface (name : String) (elems : List InterfaceElem)
  /-- An import, or another type. -/
  | other

inductive Decl
  | gen (isConst : Bool) (specs : List GoSpec)
  /-- A function, with what stands below it. -/
  | func (children : List Node)

/-- An import: its path as it is written, and the name it is given. -/
structure ImportSpec where
  path : String
  name : Option String

structure GoFile where
  imports : List ImportSpec
  decls : List Decl

/-- The path that a literal writes in quotes. -/
def ImportSpec.target (im : ImportSpec) : List Char :=
  (im.path.toList.dropWhile (· = '"')).rdropWhile (· = '"')

/-- The names under which a file imports service packages of the SDK. -/
def GoFile.services (f : GoFile) : PlainMap String String :=
  f.imports.foldl (fun imports im =>
    let package := String.ofList (SlashPath.base im.target)
    if "github.com/aws/aws-sdk-go-v2/service/".toList.isPrefixOf im.target then
      imports.insert (im.name.getD package) package
    else imports) ∅

/-- The constants that a specification sets to string literals. -/
def GoSpec.consts : GoSpec → List (String × String)
  | .value names values => (names.zip values).filterMap fun
    | (name, .string text) => some (name, text)
    | _ => none
  | .interface _ _ | .other => []

/-- An interface with the service packages that its file imports. -/
structure InterfaceDecl where
  name : String
  elems : List InterfaceElem
  imports : PlainMap String String

/-- A specification with what its declaration and its file say. -/
structure SpecAt where
  imports : PlainMap String String
  isConst : Bool
  spec : GoSpec

def SpecAt.consts (s : SpecAt) : List (String × String) := if s.isConst then s.spec.consts else []

def SpecAt.interface? (s : SpecAt) : Option InterfaceDecl :=
  match s.spec with
  | .interface name elems => some ⟨name, elems, s.imports⟩
  | .value _ _ | .other => none

/-- A node with the function and the file that it stands in. -/
structure NodeAt where
  file : String
  function : List Node
  node : Node

/-- All specifications of some files, in order. -/
def specsOf (files : List (String × GoFile)) : List SpecAt :=
  files.flatMap fun p => p.2.decls.flatMap fun
    | .gen isConst specs => specs.map (⟨p.2.services, isConst, ·⟩)
    | .func _ => []

/-- All nodes of the functions of some files, in order. -/
def functionNodes (files : List (String × GoFile)) : List NodeAt :=
  files.flatMap fun p => p.2.decls.flatMap fun
    | .gen _ _ => []
    | .func children => (nodesOf children).map (⟨p.1, children, ·⟩)

end Broom.Tools
