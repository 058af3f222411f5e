import Assay.Grammar.Parser

/-!
# Patterns

A pattern is read as an expression first, since what it is shows only after it. `isPattern` says
which expressions are patterns, of an assignment or, with names alone as targets, of a binding;
`isPlain` which contain no initial value that only a pattern may have.
-/

namespace Assay.Grammar

/-- A name or member that a single value can be assigned to. -/
def isSimpleTarget : Node → Bool
  | .name _ w => !isRestricted w
  | .member .. | .privateMember .. | .index .. => true
  | .written _ .superMember => true
  | .paren _ inner => isSimpleTarget inner
  | _ => false

mutual

/-- Whether an expression is a pattern; `binding` if it binds names. -/
def isPattern (binding : Bool) : Node → Bool
  | .name _ w => !isRestricted w
  | .array _ items => itemsArePatterns binding items
  | .object _ members => membersArePatterns binding members
  | .paren _ inner => !binding && isSimpleTarget inner
  | .member .. | .privateMember .. | .index .. => !binding
  | .written _ .superMember => !binding
  | _ => false

def isInitialized (binding : Bool) : Node → Bool
  | .assign _ op left _ => op = "=" && isPattern binding left
  | .name _ w => !isRestricted w
  | .array _ items => itemsArePatterns binding items
  | .object _ members => membersArePatterns binding members
  | .paren _ inner => !binding && isSimpleTarget inner
  | .member .. | .privateMember .. | .index .. => !binding
  | .written _ .superMember => !binding
  | _ => false

/-- Whether items are those of a pattern: a spread stands last, without a comma after it. -/
def itemsArePatterns (binding : Bool) : List Element → Bool
  | [] => true
  | .hole :: rest => itemsArePatterns binding rest
  | .item e :: rest => isInitialized binding e && itemsArePatterns binding rest
  | .spread e comma :: rest => rest.isEmpty && !comma && isPattern binding e

/-- Whether members are those of a pattern: a spread stands last and takes a single target. -/
def membersArePatterns (binding : Bool) : List Member → Bool
  | [] => true
  | .shorthand w :: rest => !isRestricted w && membersArePatterns binding rest
  | .initialized _ w :: rest => !isRestricted w && membersArePatterns binding rest
  | .keyed _ value :: rest => isInitialized binding value && membersArePatterns binding rest
  | .spread e comma :: rest => rest.isEmpty && !comma && isRestTarget binding e
  | .method _ :: _ => false

def isRestTarget (binding : Bool) : Node → Bool
  | .name _ w => !isRestricted w
  | e => !binding && isSimpleTarget e

end

mutual

/-- Whether an expression holds no initial value that only a pattern may have. -/
def isPlain : Node → Bool
  | .array _ items => itemsArePlain items
  | .object _ members => membersArePlain members
  | _ => true

def itemsArePlain : List Element → Bool
  | [] => true
  | .hole :: rest => itemsArePlain rest
  | .item e :: rest => isPlain e && itemsArePlain rest
  | .spread e _ :: rest => isPlain e && itemsArePlain rest

def membersArePlain : List Member → Bool
  | [] => true
  | .initialized .. :: _ => false
  | .keyed _ value :: rest => isPlain value && membersArePlain rest
  | .spread e _ :: rest => isPlain e && membersArePlain rest
  | _ :: rest => membersArePlain rest

end

def plain (e : Node) : Parser Node := do
  require (isPlain e)
  return e

end Assay.Grammar
