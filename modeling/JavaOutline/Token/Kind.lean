/-!
# The kinds of tokens

A Java source file is a sequence of tokens, and every decision of the parser looks only at their
kinds. The constructors of `Kind` stand in the order of the lexical grammar: of two lexical rules
that match the same text the earlier one wins, and a set of kinds is always listed in this order.
`endOfFile` comes first and is the kind of the token that closes every token stream.
-/

namespace JavaOutline

/-- The kind of a token. -/
inductive Kind where
  | endOfFile
  | kwAbstract | kwAssert | kwBoolean | kwBreak | kwByte | kwCase | kwCatch | kwChar | kwClass
  | kwConst | kwContinue | kwDefault | kwDo | kwDouble | kwElse | kwEnum | kwExtends | kwFinal
  | kwFinally | kwFloat | kwFor | kwIf | kwGoto | kwImplements | kwImport | kwInstanceof | kwInt
  | kwInterface | kwLong | kwNative | kwNew | kwPackage | kwPrivate | kwProtected | kwPublic
  | kwReturn | kwShort | kwStatic | kwStrictfp | kwSuper | kwSwitch | kwSynchronized | kwThis
  | kwThrow | kwThrows | kwTransient | kwTry | kwVoid | kwVolatile | kwWhile
  | kwModule | kwOpen | kwRequires | kwExports | kwOpens | kwTo | kwUses | kwProvides | kwWith
  | kwTransitive | kwVar | kwYield | kwRecord | kwSealed | kwPermits | kwNonSealed
  | decimalLiteral | hexLiteral | octLiteral | binaryLiteral | floatLiteral | hexFloatLiteral
  | boolLiteral | charLiteral | stringLiteral | textBlock | nullLiteral
  | lparen | rparen | lbrace | rbrace | lbrack | rbrack | semi | comma | dot
  | assign | gt | lt | bang | tilde | question | colon | equal | le | ge | notEqual | andAnd
  | orOr | inc | dec | add | sub | mul | div | bitAnd | bitOr | caret | mod | addAssign
  | subAssign | mulAssign | divAssign | andAssign | orAssign | xorAssign | modAssign
  | shiftLeftAssign | shiftRightAssign | unsignedShiftRightAssign | arrow | colonColon | atSign
  | ellipsis
  | whitespace | comment | lineComment | identifier
  deriving DecidableEq, Repr, Inhabited

namespace Kind

/-- The number of a kind in the order of the lexical grammar. -/
def index (k : Kind) : Nat := k.ctorIdx

/-- How many kinds there are. -/
def count : Nat := 129

/-- All kinds, in the order of the lexical grammar. -/
def all : List Kind := (List.range count).map ofNat

/-- The symbolic name of a kind, as it appears in listings and messages. -/
def name : Kind → String
  | .endOfFile => "EOF"
  | .kwAbstract => "ABSTRACT"
  | .kwAssert => "ASSERT"
  | .kwBoolean => "BOOLEAN"
  | .kwBreak => "BREAK"
  | .kwByte => "BYTE"
  | .kwCase => "CASE"
  | .kwCatch => "CATCH"
  | .kwChar => "CHAR"
  | .kwClass => "CLASS"
  | .kwConst => "CONST"
  | .kwContinue => "CONTINUE"
  | .kwDefault => "DEFAULT"
  | .kwDo => "DO"
  | .kwDouble => "DOUBLE"
  | .kwElse => "ELSE"
  | .kwEnum => "ENUM"
  | .kwExtends => "EXTENDS"
  | .kwFinal => "FINAL"
  | .kwFinally => "FINALLY"
  | .kwFloat => "FLOAT"
  | .kwFor => "FOR"
  | .kwIf => "IF"
  | .kwGoto => "GOTO"
  | .kwImplements => "IMPLEMENTS"
  | .kwImport => "IMPORT"
  | .kwInstanceof => "INSTANCEOF"
  | .kwInt => "INT"
  | .kwInterface => "INTERFACE"
  | .kwLong => "LONG"
  | .kwNative => "NATIVE"
  | .kwNew => "NEW"
  | .kwPackage => "PACKAGE"
  | .kwPrivate => "PRIVATE"
  | .kwProtected => "PROTECTED"
  | .kwPublic => "PUBLIC"
  | .kwReturn => "RETURN"
  | .kwShort => "SHORT"
  | .kwStatic => "STATIC"
  | .kwStrictfp => "STRICTFP"
  | .kwSuper => "SUPER"
  | .kwSwitch => "SWITCH"
  | .kwSynchronized => "SYNCHRONIZED"
  | .kwThis => "THIS"
  | .kwThrow => "THROW"
  | .kwThrows => "THROWS"
  | .kwTransient => "TRANSIENT"
  | .kwTry => "TRY"
  | .kwVoid => "VOID"
  | .kwVolatile => "VOLATILE"
  | .kwWhile => "WHILE"
  | .kwModule => "MODULE"
  | .kwOpen => "OPEN"
  | .kwRequires => "REQUIRES"
  | .kwExports => "EXPORTS"
  | .kwOpens => "OPENS"
  | .kwTo => "TO"
  | .kwUses => "USES"
  | .kwProvides => "PROVIDES"
  | .kwWith => "WITH"
  | .kwTransitive => "TRANSITIVE"
  | .kwVar => "VAR"
  | .kwYield => "YIELD"
  | .kwRecord => "RECORD"
  | .kwSealed => "SEALED"
  | .kwPermits => "PERMITS"
  | .kwNonSealed => "NON_SEALED"
  | .decimalLiteral => "DECIMAL_LITERAL"
  | .hexLiteral => "HEX_LITERAL"
  | .octLiteral => "OCT_LITERAL"
  | .binaryLiteral => "BINARY_LITERAL"
  | .floatLiteral => "FLOAT_LITERAL"
  | .hexFloatLiteral => "HEX_FLOAT_LITERAL"
  | .boolLiteral => "BOOL_LITERAL"
  | .charLiteral => "CHAR_LITERAL"
  | .stringLiteral => "STRING_LITERAL"
  | .textBlock => "TEXT_BLOCK"
  | .nullLiteral => "NULL_LITERAL"
  | .lparen => "LPAREN"
  | .rparen => "RPAREN"
  | .lbrace => "LBRACE"
  | .rbrace => "RBRACE"
  | .lbrack => "LBRACK"
  | .rbrack => "RBRACK"
  | .semi => "SEMI"
  | .comma => "COMMA"
  | .dot => "DOT"
  | .assign => "ASSIGN"
  | .gt => "GT"
  | .lt => "LT"
  | .bang => "BANG"
  | .tilde => "TILDE"
  | .question => "QUESTION"
  | .colon => "COLON"
  | .equal => "EQUAL"
  | .le => "LE"
  | .ge => "GE"
  | .notEqual => "NOTEQUAL"
  | .andAnd => "AND"
  | .orOr => "OR"
  | .inc => "INC"
  | .dec => "DEC"
  | .add => "ADD"
  | .sub => "SUB"
  | .mul => "MUL"
  | .div => "DIV"
  | .bitAnd => "BITAND"
  | .bitOr => "BITOR"
  | .caret => "CARET"
  | .mod => "MOD"
  | .addAssign => "ADD_ASSIGN"
  | .subAssign => "SUB_ASSIGN"
  | .mulAssign => "MUL_ASSIGN"
  | .divAssign => "DIV_ASSIGN"
  | .andAssign => "AND_ASSIGN"
  | .orAssign => "OR_ASSIGN"
  | .xorAssign => "XOR_ASSIGN"
  | .modAssign => "MOD_ASSIGN"
  | .shiftLeftAssign => "LSHIFT_ASSIGN"
  | .shiftRightAssign => "RSHIFT_ASSIGN"
  | .unsignedShiftRightAssign => "URSHIFT_ASSIGN"
  | .arrow => "ARROW"
  | .colonColon => "COLONCOLON"
  | .atSign => "AT"
  | .ellipsis => "ELLIPSIS"
  | .whitespace => "WS"
  | .comment => "COMMENT"
  | .lineComment => "LINE_COMMENT"
  | .identifier => "IDENTIFIER"

/-- The text of every token of this kind, for the kinds that have only one. -/
def spelling? : Kind → Option String
  | .kwAbstract => some "abstract"
  | .kwAssert => some "assert"
  | .kwBoolean => some "boolean"
  | .kwBreak => some "break"
  | .kwByte => some "byte"
  | .kwCase => some "case"
  | .kwCatch => some "catch"
  | .kwChar => some "char"
  | .kwClass => some "class"
  | .kwConst => some "const"
  | .kwContinue => some "continue"
  | .kwDefault => some "default"
  | .kwDo => some "do"
  | .kwDouble => some "double"
  | .kwElse => some "else"
  | .kwEnum => some "enum"
  | .kwExtends => some "extends"
  | .kwFinal => some "final"
  | .kwFinally => some "finally"
  | .kwFloat => some "float"
  | .kwFor => some "for"
  | .kwIf => some "if"
  | .kwGoto => some "goto"
  | .kwImplements => some "implements"
  | .kwImport => some "import"
  | .kwInstanceof => some "instanceof"
  | .kwInt => some "int"
  | .kwInterface => some "interface"
  | .kwLong => some "long"
  | .kwNative => some "native"
  | .kwNew => some "new"
  | .kwPackage => some "package"
  | .kwPrivate => some "private"
  | .kwProtected => some "protected"
  | .kwPublic => some "public"
  | .kwReturn => some "return"
  | .kwShort => some "short"
  | .kwStatic => some "static"
  | .kwStrictfp => some "strictfp"
  | .kwSuper => some "super"
  | .kwSwitch => some "switch"
  | .kwSynchronized => some "synchronized"
  | .kwThis => some "this"
  | .kwThrow => some "throw"
  | .kwThrows => some "throws"
  | .kwTransient => some "transient"
  | .kwTry => some "try"
  | .kwVoid => some "void"
  | .kwVolatile => some "volatile"
  | .kwWhile => some "while"
  | .kwModule => some "module"
  | .kwOpen => some "open"
  | .kwRequires => some "requires"
  | .kwExports => some "exports"
  | .kwOpens => some "opens"
  | .kwTo => some "to"
  | .kwUses => some "uses"
  | .kwProvides => some "provides"
  | .kwWith => some "with"
  | .kwTransitive => some "transitive"
  | .kwVar => some "var"
  | .kwYield => some "yield"
  | .kwRecord => some "record"
  | .kwSealed => some "sealed"
  | .kwPermits => some "permits"
  | .kwNonSealed => some "non-sealed"
  | .nullLiteral => some "null"
  | .lparen => some "("
  | .rparen => some ")"
  | .lbrace => some "\x7b"
  | .rbrace => some "\x7d"
  | .lbrack => some "["
  | .rbrack => some "]"
  | .semi => some ";"
  | .comma => some ","
  | .dot => some "."
  | .assign => some "="
  | .gt => some ">"
  | .lt => some "<"
  | .bang => some "!"
  | .tilde => some "~"
  | .question => some "?"
  | .colon => some ":"
  | .equal => some "=="
  | .le => some "<="
  | .ge => some ">="
  | .notEqual => some "!="
  | .andAnd => some "&&"
  | .orOr => some "||"
  | .inc => some "++"
  | .dec => some "--"
  | .add => some "+"
  | .sub => some "-"
  | .mul => some "*"
  | .div => some "/"
  | .bitAnd => some "&"
  | .bitOr => some "|"
  | .caret => some "^"
  | .mod => some "%"
  | .addAssign => some "+="
  | .subAssign => some "-="
  | .mulAssign => some "*="
  | .divAssign => some "/="
  | .andAssign => some "&="
  | .orAssign => some "|="
  | .xorAssign => some "^="
  | .modAssign => some "%="
  | .shiftLeftAssign => some "<<="
  | .shiftRightAssign => some ">>="
  | .unsignedShiftRightAssign => some ">>>="
  | .arrow => some "->"
  | .colonColon => some "::"
  | .atSign => some "@"
  | .ellipsis => some "..."
  | _ => none

/-- How a message names a kind: the quoted spelling where there is only one, else the symbolic
name. -/
def display (k : Kind) : String :=
  match k.spelling? with
  | some s => "'" ++ s ++ "'"
  | none => if k = .endOfFile then "<EOF>" else k.name

/-- Blanks and comments stand beside the program text: they are tokens that the parser never
sees. -/
def isHidden : Kind → Bool
  | .whitespace | .comment | .lineComment => true
  | _ => false

end Kind

end JavaOutline
