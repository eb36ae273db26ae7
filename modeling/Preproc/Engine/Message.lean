import Preproc.Condition.Eval
import Preproc.Diagnostic.Warning
import Preproc.Keyword

set_option autoImplicit false

/-! # What the engine tells the user

The errors and warnings that directives give rise to, each with its wording in one place. -/

namespace Preproc.Engine

/-- The causes of errors in directives. -/
inductive Complaint where
  | expectedHash
  | invalidDirective (text : Bytes)
  | unsupported (name : Bytes)
  | noExpression (directive : Keyword)
  | badCondition (directive : Keyword) (error : Condition.Error)
  | nestedReplacement
  | functionLikeInCondition (name : Bytes)
  | unclosedDefined
  | definedNeedsName
  | lockedUndef (name : Bytes)
  | extraTokens (directive : Keyword)
  | requested (text : Bytes)
  | includeNeedsName
  | includeEmptyName
  | includeUnclosed
  | includeTooDeep (limit : Int)
  | includeFailed (name reason : Bytes)
  | badLineNumber (text : Bytes)
  | badLineFile (text : Bytes)
  | lineOutsideFile
  | unterminatedGroup
  deriving DecidableEq

/-- The wording of an error. -/
def Complaint.message : Complaint → Bytes
  | expectedHash => ascii "expected '#' at start of directive"
  | invalidDirective text => ascii "invalid preprocessing directive #" ++ text
  | unsupported name => ascii "#" ++ name ++ ascii " is not supported"
  | noExpression directive => ascii "#" ++ directive.name ++ ascii " with no expression"
  | badCondition directive error => ascii "#" ++ directive.name ++ ascii ": " ++ error.message
  | nestedReplacement => ascii "macro replacement in #if nested too deeply"
  | functionLikeInCondition name =>
    ascii "function-like macro \"" ++ name ++ ascii "\" cannot be used in #if"
  | unclosedDefined => ascii "missing ')' after \"defined\""
  | definedNeedsName => ascii "operator \"defined\" requires an identifier"
  | lockedUndef name => ascii "cannot undefine protected macro \"" ++ name ++ ascii "\""
  | extraTokens directive =>
    ascii "extra tokens at end of #" ++ directive.name ++ ascii " directive"
  | requested text => ascii "#error " ++ text
  | includeNeedsName => ascii "#include expects \"FILENAME\" or <FILENAME>"
  | includeEmptyName => ascii "empty filename in #include"
  | includeUnclosed => ascii "missing terminating > character"
  | includeTooDeep limit =>
    ascii "#include nested too deeply (limit " ++ decimal limit ++ ascii ")"
  | includeFailed name reason => name ++ ascii ": " ++ reason
  | badLineNumber text => ascii "\"" ++ text ++ ascii "\" after #line is not a positive integer"
  | badLineFile text => ascii "invalid filename \"" ++ text ++ ascii "\" in #line"
  | lineOutsideFile => ascii "#line used outside of a file"
  | unterminatedGroup => ascii "unterminated conditional directive"

/-- The causes of warnings in directives. -/
inductive Caution where
  | skippedInvalid
  | extraTokens (directive : Keyword)
  | requested (text : Bytes)
  | deepNesting (depth limit : Int)
  | manyMacros (count limit : Int)
  deriving DecidableEq

/-- The class of a warning. -/
def Caution.classes : Caution → WarningSet
  | skippedInvalid => .skipped
  | extraTokens _ => .trailing
  | requested _ => .directive
  | deepNesting .. | manyMacros .. => .limits

/-- The wording of a warning. -/
def Caution.message : Caution → Bytes
  | skippedInvalid => ascii "invalid preprocessing directive in skipped block"
  | extraTokens directive =>
    ascii "extra tokens at end of #" ++ directive.name ++ ascii " directive"
  | requested text => ascii "#warning " ++ text
  | deepNesting depth limit =>
    ascii "#if nesting depth " ++ decimal depth ++ ascii " is close to the limit of "
      ++ decimal limit
  | manyMacros count limit =>
    decimal count ++ ascii " macros defined, more than the configured limit of " ++ decimal limit

end Preproc.Engine
