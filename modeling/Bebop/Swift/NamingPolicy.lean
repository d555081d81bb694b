import Bebop.Compiler.Descriptor

/-!
# Bebop — the names in generated Swift

`NamingPolicy.swift`: the names of types and of values, from those of a schema. A name of
a schema has ASCII letters only.
-/

namespace Bebop.Swift

open Bebop.Compiler

namespace NamingPolicy

/-- `hardKeywords` -/
def hardKeywords : List Text :=
  ["Any", "as", "associatedtype", "break", "case", "catch", "class", "continue", "default", "defer", "deinit", "do",
    "else", "enum", "extension", "fallthrough", "false", "fileprivate", "for", "func", "guard", "if", "import", "in",
    "init", "inout", "internal", "is", "let", "nil", "operator", "precedencegroup", "private", "protocol", "public",
    "repeat", "rethrows", "return", "self", "Self", "static", "struct", "subscript", "super", "switch", "throw",
    "throws", "true", "try", "typealias", "var", "where", "while"].map String.toList

/-- `escapeKeyword`. `Char.ofNat 0x60` is the backtick. -/
def escapeKeyword (name : Text) : Text :=
  if name ∈ hardKeywords then Char.ofNat 0x60 :: name ++ [Char.ofNat 0x60] else name

/-- `part.lowercased()` with its first letter in upper case. -/
def capitalized (part : Text) : Text :=
  match part.map Char.toLower with
  | [] => []
  | c :: rest => c.toUpper :: rest

/-- `split(separator: "_", omittingEmptySubsequences: true)` -/
def parts (name : Text) : List Text := (name.splitOn '_').filter (· ≠ [])

/-- The loop of `toCamelCase`; `written` is the length of `result`. -/
def lowerStart (written : Nat) : Text → Text
  | [] => []
  | c :: rest =>
    if ¬c.isUpper then c :: rest
    else
      match rest with
      | [] => [c.toLower]
      | next :: _ =>
        if ¬next.isUpper ∧ next.isLower ∧ written > 1 then c :: rest
        else c.toLower :: lowerStart (written + 1) rest

/-- `toCamelCase` -/
def toCamelCase (name : Text) : Text :=
  if '_' ∈ name then
    match parts name with
    | [] => name
    | first :: rest => first.map Char.toLower ++ rest.flatMap capitalized
  else if name.head?.any Char.isLower then name
  else lowerStart 0 name

/-- `toPascalCase` -/
def toPascalCase (name : Text) : Text :=
  if '_' ∈ name then (parts name).flatMap capitalized
  else
    match name with
    | [] => []
    | c :: rest => if c.isLower then c.toUpper :: rest else name

def typeName (name : Text) : Text := escapeKeyword (toPascalCase name)

def fieldName (name : Text) : Text := escapeKeyword (toCamelCase name)

example : typeName "user_name".toList = "UserName".toList ∧ fieldName "URLPath".toList = "urlPath".toList := by
  decide

end NamingPolicy

end Bebop.Swift
