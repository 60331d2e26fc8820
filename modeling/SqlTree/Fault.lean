import SqlTree.Value.Written

/-!
What can go wrong, by cause, and the texts that report it. Every report has a message for the
user and a detail for the log.
-/

namespace SqlTree

/-- The kinds of fault. The last four are faults of a value's shape, which nothing reports in
words. -/
inductive FaultKind where
  | unknownClause
  | unknownOperator
  | invalidIdentifier
  | illegalShape
  | missingParameter
  | dangerousStatement
  | registration
  | tooDeep
  | unreadable
  | badSetting
  | badValue
  | wrongType
  | unsupported
  | outOfRange
deriving DecidableEq, Repr

/-- A place in a text, both counted from one. -/
structure Place where
  line : Nat
  column : Nat
deriving DecidableEq, Repr

structure Report where
  kind : FaultKind
  message : String
  detail : String
deriving DecidableEq, Repr

/-- Without a detail of its own a report repeats its message. -/
def Report.of (kind : FaultKind) (message : String) (detail : String) : Report :=
  ⟨kind, message, if detail.isEmpty then message else detail⟩

inductive Fault where
  -- names
  | emptyName
  | longName (name : String) (limit : Int)
  | suspiciousName (name : String)
  | suspiciousText (text : String)
  | suspiciousType (type : Value)
  | nullByte (place : String) (name : Value)
  | nameNotText (name : Value)
  | notAName (name : Value)
  -- operators and forms
  | unknownOperator (head : String)
  | notBinary (op : String) (count : Nat)
  | noOperands (op : String)
  | notMembership (keyword op : String) (count : Nat)
  | emptyMembership (left keyword checking : String)
  | argumentCount (op : String) (allowed : List Nat) (arguments : List Value)
  | unpairedBranches (op : String)
  | noSubject
  | noQuantity
  | noField
  | badWindow (spec : Value)
  | badExtractField (field : Value)
  | noLiteral (value : Value)
  | missingParameter (name : String) (known : List String)
  -- clauses
  | unknownClause (keys known : List String)
  | unguarded (verb table checking : String)
  | noDistinctItems
  | extraItems (clause : String) (items : List Value)
  | notAssignments (clause : String) (value : Value)
  | badJoin (keyword : String) (entry : Value)
  | unpairedJoins (count : Nat)
  | badTableExpression (clause : String) (entry : Value)
  | badLock (clause : String) (item : Value)
  | badColumnType (column type : Value)
  -- registries
  | emptyOperatorName
  | formNotUsable (name typeName : String)
  | clauseNotUsable (name typeName : String)
  | unknownAnchor (name anchor : String)
  -- nesting
  | expressionTooDeep (depth limit : Int)
  | textTooDeep (depth limit : Int)
  -- reading text
  | noStatement (text : String)
  | unexpected (place : Place)
  | unexpectedEnd
  -- settings and shapes
  | unknownDialect (name : String)
  | unknownChecking (name : String)
  | wrongCount
  | ownAnchor
  | longNumeral
  | wrongType
  | unsupported
  | outOfRange
deriving Inhabited

namespace Fault

def kind : Fault → FaultKind
  | emptyName | longName .. | suspiciousName _ | suspiciousText _ | suspiciousType _
  | nullByte .. | nameNotText _ | notAName _ => .invalidIdentifier
  | unknownOperator _ => .unknownOperator
  | notBinary .. | noOperands _ | notMembership .. | emptyMembership .. | argumentCount ..
  | unpairedBranches _ | noSubject | noQuantity | noField | badWindow _ | badExtractField _
  | noLiteral _ => .illegalShape
  | missingParameter .. => .missingParameter
  | unknownClause .. => .unknownClause
  | unguarded .. => .dangerousStatement
  | noDistinctItems | extraItems .. | notAssignments .. | badJoin .. | unpairedJoins _
  | badTableExpression .. | badLock .. | badColumnType .. => .illegalShape
  | emptyOperatorName | formNotUsable .. | clauseNotUsable .. | unknownAnchor .. => .registration
  | expressionTooDeep .. | textTooDeep .. => .tooDeep
  | noStatement _ | unexpected _ | unexpectedEnd => .unreadable
  | unknownDialect _ | unknownChecking _ => .badSetting
  | wrongCount | ownAnchor | longNumeral => .badValue
  | wrongType => .wrongType
  | unsupported => .unsupported
  | outOfRange => .outOfRange

def suspicion (shown : String) : String := "Suspicious character found in entity: " ++ shown

def countsText (counts : List Nat) : String := " or ".intercalate (counts.map toString)

def danger (verb table : String) : String :=
  verb ++ " " ++ table ++ " without a non-empty WHERE clause is dangerous"

def place? : Fault → Option Place
  | unexpected p => some p
  | _ => none

def message : Fault → String
  | emptyName => "identifier cannot be empty"
  | longName .. => "identifier too long"
  | suspiciousName s | suspiciousText s => suspicion s
  | suspiciousType v => suspicion v.shown
  | nullByte place _ => place ++ " cannot contain null bytes"
  | nameNotText v => "expected an identifier, got " ++ v.typeName
  | notAName v => "invalid identifier: " ++ v.written
  | unknownOperator head => "Unknown SQL operator: " ++ head
  | notBinary op _ => "Only binary " ++ op ++ " is supported"
  | noOperands op => "No operands found for " ++ op
  | notMembership keyword .. => keyword ++ " takes exactly two operands"
  | emptyMembership .. => "IN () empty collection is illegal"
  | argumentCount op allowed _ => op ++ " takes " ++ countsText allowed ++ " argument(s)"
  | unpairedBranches op => op ++ " needs condition/value pairs"
  | noSubject => "case-expr needs a subject expression"
  | noQuantity => "interval needs a quantity"
  | noField => ". needs an expression and at least one field"
  | badWindow _ => "over expects a window name or a partition-by/order-by mapping"
  | badExtractField _ => "extract needs a field name such as year or epoch"
  | noLiteral v => "cannot render value of type " ++ v.typeName ++ " as SQL"
  | missingParameter name _ => "Missing parameter value for " ++ name
  | unknownClause keys _ => "Unknown SQL clause: " ++ ", ".intercalate keys
  | unguarded verb table _ => danger verb table
  | noDistinctItems => "select-distinct-on needs [on-expressions, *columns]"
  | extraItems clause _ => "unexpected " ++ clause ++ " arguments"
  | notAssignments clause _ => clause ++ " expects a non-empty mapping of column to value"
  | badJoin keyword _ => keyword ++ " entries must be [table, condition]"
  | unpairedJoins _ => "join-by expects alternating join types and join entries"
  | badTableExpression clause _ => clause ++ " entries must be [name, query]"
  | badLock clause _ => clause ++ " expects lock strength and option keywords"
  | badColumnType .. => "column types and constraints must be strings"
  | emptyOperatorName => "operator name cannot be empty"
  | formNotUsable name _ => "special syntax " ++ Text.written name ++ " needs a callable formatter"
  | clauseNotUsable name _ => "clause " ++ Text.written name ++ " needs a callable formatter"
  | unknownAnchor _ anchor => "Unrecognized clause: " ++ anchor
  | expressionTooDeep _ limit => "expression exceeds maximum nesting depth of " ++ toString limit
  | textTooDeep .. => "SQL nesting exceeds maximum parse depth"
  | noStatement _ => "could not parse SQL: empty input"
  | unexpected p =>
    "could not parse SQL at line " ++ toString p.line ++ ", column " ++ toString p.column
  | unexpectedEnd => "could not parse SQL: unexpected end of input"
  | unknownDialect name => "unknown dialect: " ++ Text.written name ++
      ". Available: ansi, mysql, oracle, postgres, sqlite, sqlserver"
  | unknownChecking name => Text.written name ++ " is not a valid Checking"
  | wrongCount => "wrong number of items"
  | wrongType => "value of an unsuitable type"
  | ownAnchor => "clause cannot stand before itself"
  | longNumeral => "numeral too long"
  | unsupported => "value without the operation asked for"
  | outOfRange => "index out of range"

/-- What the log gets beyond the message; empty where there is nothing to add. -/
def extra : Fault → String
  | emptyName => "empty identifier part provided"
  | longName name limit =>
    "identifier '" ++ name ++ "' exceeds " ++ toString limit ++ " characters"
  | suspiciousName s => "semicolon found in identifier " ++ Text.written s
  | suspiciousType v => "suspicious characters in type name " ++ v.written
  | nullByte place v => "null byte found in " ++ place ++ ": " ++ v.written
  | nameNotText v => "non-string identifier " ++ v.written
  | notAName v => "expected a table or column name, got " ++ v.written
  | unknownOperator head =>
    "no infix operator, special syntax or function named " ++ Text.written head
  | notBinary op count => op ++ " given " ++ toString count ++ " operands"
  | notMembership _ op count => op ++ " given " ++ toString count ++ " operands"
  | emptyMembership left keyword checking =>
    left ++ " " ++ keyword ++ " () with checking=" ++ checking
  | argumentCount op _ arguments =>
    op ++ " given " ++ toString arguments.length ++ " arguments: " ++ (Value.list arguments).written
  | unpairedBranches op => op ++ " given an odd number of branch arguments"
  | badWindow v => "unsupported window spec " ++ v.written
  | badExtractField v => "invalid extract field " ++ v.written
  | noLiteral v => "no SQL literal form for " ++ v.written
  | missingParameter _ known =>
    "params has keys " ++ (Value.list (known.map .text)).written
  | unknownClause _ known => "registered clauses: " ++ ", ".intercalate known
  | unguarded verb table checking =>
    verb ++ " " ++ table ++ " has no WHERE clause with checking=" ++ checking
  | extraItems clause items => clause ++ " given extra items " ++ (Value.list items).written
  | notAssignments clause v => clause ++ " given " ++ v.written
  | badJoin _ v => "unsupported join entry " ++ v.written
  | unpairedJoins count => "join-by given " ++ toString count ++ " items"
  | badTableExpression _ v => "unsupported CTE entry " ++ v.written
  | badLock clause v => "unsupported " ++ clause ++ " item " ++ v.written
  | badColumnType column type => "column " ++ column.written ++ " given " ++ type.written
  | formNotUsable name typeName => "got " ++ typeName ++ " for " ++ Text.written name
  | clauseNotUsable name typeName => "got " ++ typeName ++ " for " ++ Text.written name
  | unknownAnchor name anchor =>
    "cannot insert " ++ Text.written name ++ " before unknown clause " ++ Text.written anchor
  | expressionTooDeep depth limit => "depth " ++ toString depth ++ " > " ++ toString limit
  | textTooDeep depth limit =>
    "depth " ++ toString depth ++ " exceeds limit " ++ toString limit
  | noStatement s => "no statement found in " ++ Text.written s
  | _ => ""

def report (f : Fault) : Report := .of f.kind f.message f.extra

end Fault

end SqlTree
