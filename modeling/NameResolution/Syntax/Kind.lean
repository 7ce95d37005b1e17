/-!
# Node kinds

Every node of a syntax tree is of one of 21 kinds. A kind has a name, used in the serialized form,
and a tag, used when it is shown.
-/

namespace NameResolution

/-- The kind of a syntax node. -/
inductive Kind where
  | empty
  | block
  | varDecl
  | importDecl
  | exportDecl
  | null
  | boolean
  | integer
  | float
  | string
  | interpolation
  | identifier
  | spread
  | comma
  | list
  | inOf
  | group
  | await
  | namedType
  | listType
  | nullableType
deriving DecidableEq, Inhabited

namespace Kind

/-- All kinds. -/
def all : List Kind :=
  [empty, block, varDecl, importDecl, exportDecl, null, boolean, integer, float, string,
   interpolation, identifier, spread, comma, list, inOf, group, await, namedType, listType,
   nullableType]

theorem mem_all (k : Kind) : k ∈ all := by
  cases k <;> decide

/-- The name of a kind in the serialized form. -/
def name : Kind → String
  | empty => "Empty"
  | block => "Block"
  | varDecl => "VarDecl"
  | importDecl => "Import"
  | exportDecl => "Export"
  | null => "Null"
  | boolean => "Boolean"
  | integer => "Integer"
  | float => "Float"
  | string => "String"
  | interpolation => "Interpolation"
  | identifier => "Identifier"
  | spread => "Spread"
  | comma => "Comma"
  | list => "List"
  | inOf => "InOf"
  | group => "Group"
  | await => "Await"
  | namedType => "NamedType"
  | listType => "ListType"
  | nullableType => "NullableType"

/-- The kind of a given name. -/
def ofName? (s : String) : Option Kind := all.find? (·.name == s)

theorem ofName?_name (k : Kind) : ofName? k.name = some k := by
  cases k <;> decide

/-- The tag that shows a kind. -/
def tag : Kind → String
  | empty => "EmptyStatement"
  | block => "BlockStatement"
  | varDecl => "VarDecl"
  | importDecl => "ImportDecl"
  | exportDecl => "ExportDecl"
  | null => "NullLiteral"
  | boolean => "BooleanLiteral"
  | integer => "IntegerLiteral"
  | float => "FloatLiteral"
  | string => "StringLiteral"
  | interpolation => "StringInterpolation"
  | identifier => "IdentifierExpr"
  | spread => "SpreadExpr"
  | comma => "CommaExpr"
  | list => "ListLiteral"
  | inOf => "InOfExpr"
  | group => "GroupExpr"
  | await => "AwaitExpr"
  | namedType => "NamedType"
  | listType => "ListType"
  | nullableType => "NullableType"

instance : ToString Kind := ⟨tag⟩

/-- The five kinds that stand for a constant. -/
def isLiteral : Kind → Bool
  | null | boolean | integer | float | string => true
  | _ => false

end Kind

end NameResolution
