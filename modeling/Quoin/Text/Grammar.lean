import Mathlib
import Quoin.Trans.Peg

/-!
# Quoin — the grammar

The rules of `Quoin.pest`, one constructor each, with their bodies as the
grammar writes them. Between the parts of a rule that is not atomic blanks and
comments are skipped. The rules that are watched are the two the rest of the
front end has to find again in the raw source: `COMMENT` and `shebang`.

`Accepts` says that a source is a program, with the comments and the shebang
lines that its parse matches.
-/

namespace Quoin.Text

open Trans.Peg Trans.Peg.Expr

inductive Rule where
  | WHITESPACE | COMMENT | IDENT_PREFIX | IDENT_REST | IDENT | XIDENT | USER_LIST_START | SYMBOL
  | ESCAPE_SEQUENCE | STRING | REGEX_ESCAPE_SEQUENCE | REGEXP | USER_STRING | INT | NUMBER
  | reservedIdent | opDef | opMeth | shebang | program | stmt | useStmt | useKw | useTarget
  | usePkg | usePath | methodReturn | yieldReturn | blockReturn | bang3 | dot3 | huh3 | assignment
  | decl | varKw | letKw | declBody | typedDeclTarget | lvalue | splatIgnoredLvalue | splatLvalue
  | ignoredLvalue | identLvalue | subLvalue | expr | elemChunk | infixOp | setInfixOp | setElem
  | opOr | opAnd | opEq | opNe | opLe | opLt | opGe | opGt | opMatch | opAdd | opSub | opMul
  | opDiv | opMod | opRange | opClassExt | prefixOp | postfixOp | primary | nestedExpr
  | userListExpr | listExpr | setExpr | dictExpr | numberExpr | stringExpr | symbolExpr | blockExpr
  | defCallExpr | nsvaridentExpr | regexExpr | userStringExpr | definitionExpr | classDef2
  | classDef | constDef | methodDef | methodExt | selector | selectorWArgs | kwVar
  | selectorNoArgsBang | selectorNoArgs | selectorSymbol | callSig | callSigWArg | callSigNoArgBang
  | callSigNoArg | nsvarident | namespacedIdent | instanceIdent | localIdent | typeRef | typeArgs
  | typeRet | typeParams | namespaceRef | rootNs | fullNs | ident | symbol | block
  | namedBlockWDecls | blockWDecls | blockNoDecls | opDash | blockDecls | blockRet | blockArg
  | blockArgIgnored | blockArgTyped | blockArgUntyped | blockDecl | blockDeclTyped
  | blockDeclUntyped | argIdent | argIdentInst | argIdentNormal
  deriving DecidableEq

def asciiDigit : Expr Rule := range '0' '9'

def asciiHexDigit : Expr Rule := choice [range '0' '9', range 'a' 'f', range 'A' 'F']

def Rule.body : Rule → Expr Rule
  | .WHITESPACE => choice [lit " ", lit "\r", lit "\n", lit "\t"]
  | .COMMENT =>
    choice [cat [lit "\"", lit "*", many (cat [.not (lit "\n"), any])],
      cat [lit "\"", lit "\""],
      cat [lit "\"", .not (lit "*"),
        many (choice [cat [lit "\\", lit "\""], cat [.not (lit "\""), any]]), lit "\""]]
  | .IDENT_PREFIX => choice [range 'a' 'z', range 'A' 'Z', lit "_"]
  | .IDENT_REST => choice [range 'a' 'z', range 'A' 'Z', range '0' '9', lit "?", lit "_"]
  | .IDENT => cat [.rule .IDENT_PREFIX, many (.rule .IDENT_REST)]
  | .XIDENT => cat [.rule .IDENT_PREFIX, many (choice [.rule .IDENT_REST, lit ":"])]
  | .USER_LIST_START => cat [lit "#", .rule .IDENT, lit "("]
  | .SYMBOL => cat [lit "#", choice [.rule .STRING, .rule .XIDENT]]
  | .ESCAPE_SEQUENCE =>
    choice [cat [lit "\\", choice [lit "t", lit "n", lit "r", lit "\"", lit "'", lit "\\"]],
      cat [lit "\\", choice [lit "u", lit "x"],
        cat [asciiHexDigit, asciiHexDigit, asciiHexDigit, asciiHexDigit]]]
  | .STRING =>
    cat [lit "'",
      many (choice [cat [.not (choice [lit "'", lit "\\"]), any], .rule .ESCAPE_SEQUENCE]),
      lit "'"]
  | .REGEX_ESCAPE_SEQUENCE =>
    choice [cat [lit "\\", choice [range 'a' 'z', range 'A' 'Z', range '0' '9', lit "\\"]],
      cat [lit "\\", choice [lit "u", lit "x"],
        cat [asciiHexDigit, asciiHexDigit, asciiHexDigit, asciiHexDigit]]]
  | .REGEXP =>
    cat [lit "#", lit "/",
      many (choice [cat [.not (choice [lit "/", lit "\\"]), any], .rule .REGEX_ESCAPE_SEQUENCE]),
      lit "/"]
  | .USER_STRING => cat [lit "#", .rule .IDENT, .rule .STRING]
  | .INT => choice [lit "0", cat [range '1' '9', many asciiDigit]]
  | .NUMBER =>
    choice [cat [.rule .INT, .opt (cat [lit ".", many1 asciiDigit])],
      cat [lit ".", many1 asciiDigit]]
  | .reservedIdent => cat [choice [lit "nil", lit "true", lit "false"], .not (.rule .IDENT_REST)]
  | .opDef => cat [lit "<", lit "-", .not (lit "-")]
  | .opMeth => cat [lit "-", lit ">", .not (lit "-")]
  | .shebang => cat [lit "#!", many (cat [.not (lit "\n"), any])]
  | .program =>
    cat [.terminal .start, .opt (.rule .shebang), many1 (cat [.rule .stmt, .opt (lit ";")]),
      .terminal .finish]
  | .stmt =>
    choice [.rule .useStmt, .rule .methodReturn, .rule .blockReturn, .rule .decl,
      .rule .assignment, .rule .bang3, .rule .dot3, .rule .huh3, .rule .expr]
  | .useStmt => cat [.rule .useKw, .rule .useTarget]
  | .useKw => cat [lit "use", .not (.rule .IDENT_REST)]
  | .useTarget => cat [.opt (cat [.rule .usePkg, lit ":"]), .rule .usePath]
  | .usePkg => .rule .IDENT
  | .usePath =>
    choice [lit "*",
      cat [.rule .IDENT, many (cat [lit "/", .rule .IDENT]), .opt (cat [lit "/", lit "*"])]]
  | .methodReturn => cat [lit "^", lit "^", .rule .expr]
  | .yieldReturn => cat [lit "^", lit ">", .rule .expr]
  | .blockReturn => cat [lit "^", .not (lit ">"), .rule .expr]
  | .bang3 => cat [lit "!", lit "!", lit "!"]
  | .dot3 => cat [lit ".", lit ".", lit "."]
  | .huh3 => cat [lit "?", lit "?", lit "?"]
  | .assignment => cat [many1 (.rule .lvalue), lit "=", .rule .expr]
  | .decl => cat [choice [.rule .varKw, .rule .letKw], .rule .declBody, lit "=", .rule .expr]
  | .varKw => cat [lit "var", .not (.rule .IDENT_REST)]
  | .letKw => cat [lit "let", .not (.rule .IDENT_REST)]
  | .declBody => choice [.rule .typedDeclTarget, many1 (.rule .lvalue)]
  | .typedDeclTarget => cat [.rule .identLvalue, lit ":", .rule .typeRef]
  | .lvalue =>
    choice [.rule .splatIgnoredLvalue, .rule .splatLvalue, .rule .ignoredLvalue,
      .rule .identLvalue, .rule .subLvalue]
  | .splatIgnoredLvalue => cat [lit "*", lit "_"]
  | .splatLvalue => cat [lit "*", .rule .nsvarident]
  | .ignoredLvalue => lit "_"
  | .identLvalue => .rule .nsvarident
  | .subLvalue => cat [lit "(", many1 (.rule .lvalue), lit ")"]
  | .expr =>
    cat [many (.rule .prefixOp), .rule .primary, many (.rule .postfixOp),
      many (cat [.rule .infixOp, many (.rule .prefixOp), .rule .primary, many (.rule .postfixOp)])]
  | .elemChunk => cat [many (.rule .WHITESPACE), .rule .expr]
  | .infixOp =>
    choice [.rule .opOr, .rule .opAnd, .rule .opEq, .rule .opNe, .rule .opClassExt, .rule .opLe,
      .rule .opLt, .rule .opGe, .rule .opGt, .rule .opMatch, .rule .opAdd, .rule .opSub,
      .rule .opMul, .rule .opDiv, .rule .opMod, .rule .opRange]
  | .setInfixOp =>
    choice [.rule .opOr, .rule .opAnd, .rule .opEq, .rule .opNe, .rule .opClassExt, .rule .opLe,
      .rule .opLt, .rule .opMatch, .rule .opAdd, .rule .opSub, .rule .opMul, .rule .opDiv,
      .rule .opMod, .rule .opRange]
  | .setElem =>
    cat [many (.rule .prefixOp), .rule .primary, many (.rule .postfixOp),
      many (cat [.rule .setInfixOp, many (.rule .prefixOp), .rule .primary,
        many (.rule .postfixOp)])]
  | .opOr => cat [lit "|", lit "|"]
  | .opAnd => cat [lit "&", lit "&"]
  | .opEq => cat [lit "=", lit "="]
  | .opNe => cat [lit "!", lit "="]
  | .opLe => cat [lit "<", lit "="]
  | .opLt => cat [lit "<", .not (lit "-"), .not (lit "=")]
  | .opGe => cat [lit ">", lit "="]
  | .opGt => cat [lit ">", .not (lit "=")]
  | .opMatch => lit "~"
  | .opAdd => lit "+"
  | .opSub => lit "-"
  | .opMul => lit "*"
  | .opDiv => lit "/"
  | .opMod => lit "%"
  | .opRange => cat [lit ".", lit "."]
  | .opClassExt => cat [lit "<", lit "-", lit "-"]
  | .prefixOp => choice [lit "+", lit "-", lit "!", lit "%"]
  | .postfixOp => cat [lit ".", .rule .callSig]
  | .primary =>
    choice [.rule .nestedExpr, .rule .yieldReturn, .rule .userListExpr, .rule .listExpr,
      .rule .setExpr, .rule .dictExpr, .rule .definitionExpr, .rule .numberExpr, .rule .stringExpr,
      .rule .userStringExpr, .rule .symbolExpr, .rule .blockExpr, .rule .defCallExpr,
      .rule .nsvaridentExpr, .rule .regexExpr]
  | .nestedExpr => cat [lit "(", .rule .expr, lit ")"]
  | .userListExpr => cat [.rule .USER_LIST_START, many (.rule .expr), lit ")"]
  | .listExpr => cat [lit "#", lit "(", many (.rule .expr), lit ")"]
  | .setExpr => cat [lit "#", lit "<", many (.rule .setElem), lit ">"]
  | .dictExpr =>
    cat [lit "#", lit "\x7b", many (cat [.rule .expr, lit ":", .rule .expr]), lit "\x7d"]
  | .numberExpr => .rule .NUMBER
  | .stringExpr => .rule .STRING
  | .symbolExpr => .rule .symbol
  | .blockExpr => .rule .block
  | .defCallExpr => cat [lit ".", .rule .callSig]
  | .nsvaridentExpr => .rule .nsvarident
  | .regexExpr => .rule .REGEXP
  | .userStringExpr => .rule .USER_STRING
  | .definitionExpr =>
    choice [.rule .classDef2, .rule .classDef, .rule .constDef, .rule .methodDef, .rule .methodExt]
  | .classDef2 =>
    cat [.rule .nsvarident, .rule .opDef, .rule .nsvarident, .opt (.rule .typeParams),
      .rule .opDef, .rule .block]
  | .classDef => cat [.rule .nsvarident, .opt (.rule .typeParams), .rule .opDef, .rule .block]
  | .constDef => cat [.rule .nsvarident, .rule .opDef, .rule .expr]
  | .methodDef => cat [.rule .selector, .rule .opMeth, .rule .block]
  | .methodExt => cat [.rule .selector, lit "-", lit "-", lit ">", .rule .block]
  | .selector =>
    choice [.rule .selectorWArgs, .rule .selectorNoArgsBang, .rule .selectorNoArgs,
      .rule .selectorSymbol]
  | .selectorWArgs => many1 (cat [.rule .ident, .opt (.rule .kwVar), lit ":"])
  | .kwVar => lit "+"
  | .selectorNoArgsBang => cat [.rule .ident, lit "!", .not (lit "=")]
  | .selectorNoArgs => .rule .ident
  | .selectorSymbol => .rule .symbol
  | .callSig => choice [.rule .callSigWArg, .rule .callSigNoArgBang, .rule .callSigNoArg]
  | .callSigWArg => many1 (cat [.rule .ident, lit ":", .rule .expr])
  | .callSigNoArgBang => cat [.rule .ident, lit "!", .not (lit "=")]
  | .callSigNoArg => .rule .ident
  | .nsvarident => choice [.rule .namespacedIdent, .rule .instanceIdent, .rule .localIdent]
  | .namespacedIdent => cat [.rule .namespaceRef, .rule .ident]
  | .instanceIdent => cat [lit "@", .rule .ident]
  | .localIdent => .rule .ident
  | .typeRef => cat [.opt (.rule .namespaceRef), .rule .ident, .opt (.rule .typeArgs)]
  | .typeArgs => cat [lit "(", many (.rule .typeRef), .opt (.rule .typeRet), lit ")"]
  | .typeRet => cat [lit "^", .rule .typeRef]
  | .typeParams => cat [lit "(", many1 (.rule .ident), lit ")"]
  | .namespaceRef => choice [.rule .rootNs, .rule .fullNs]
  | .rootNs => cat [lit "[", lit "/", lit "]"]
  | .fullNs =>
    cat [lit "[", .rule .ident, many (cat [lit "/", .rule .ident]), .opt (lit "/"), lit "]"]
  | .ident => choice [.rule .reservedIdent, .rule .IDENT]
  | .symbol => cat [lit "#", choice [.rule .STRING, .rule .XIDENT]]
  | .block => choice [.rule .namedBlockWDecls, .rule .blockWDecls, .rule .blockNoDecls]
  | .namedBlockWDecls =>
    cat [lit "\x7b", .rule .symbol, .rule .blockDecls, many (cat [.rule .stmt, .opt (lit ";")]),
      lit "\x7d"]
  | .blockWDecls =>
    cat [lit "\x7b", .rule .blockDecls, many (cat [.rule .stmt, .opt (lit ";")]), lit "\x7d"]
  | .blockNoDecls => cat [lit "\x7b", many (cat [.rule .stmt, .opt (lit ";")]), lit "\x7d"]
  | .opDash => lit "-"
  | .blockDecls =>
    choice [cat [lit "|", many (.rule .blockArg), .opt (.rule .blockRet), .opt (.rule .block),
        .rule .opDash, many (.rule .blockDecl), lit "|"],
      cat [lit "|", many (.rule .blockArg), .opt (.rule .blockRet), .opt (.rule .block), lit "|"]]
  | .blockRet => cat [lit "^", .rule .typeRef]
  | .blockArg => choice [.rule .blockArgIgnored, .rule .blockArgTyped, .rule .blockArgUntyped]
  | .blockArgIgnored => lit "_"
  | .blockArgTyped => cat [.rule .argIdent, lit ":", .rule .typeRef]
  | .blockArgUntyped => .rule .argIdent
  | .blockDecl => choice [.rule .blockDeclTyped, .rule .blockDeclUntyped]
  | .blockDeclTyped => cat [.rule .argIdent, lit ":", .rule .typeRef]
  | .blockDeclUntyped => .rule .argIdent
  | .argIdent => choice [.rule .argIdentInst, .rule .argIdentNormal]
  | .argIdentInst => cat [lit "@", .rule .ident]
  | .argIdentNormal => .rule .ident

/-- The rules marked with `@` or `$`, and the two that the generator makes atomic itself. -/
def Rule.atomic : Rule → Bool
  | .WHITESPACE | .COMMENT | .IDENT | .XIDENT | .USER_LIST_START | .SYMBOL | .STRING | .REGEXP
  | .USER_STRING | .NUMBER | .reservedIdent | .shebang | .useKw | .useTarget | .usePkg | .usePath
  | .varKw | .letKw | .symbol => true
  | _ => false

def grammar : Grammar Rule where
  body := Rule.body
  atomic := Rule.atomic
  watched r := r = .COMMENT ∨ r = .shebang
  blank := .WHITESPACE
  comment := .COMMENT

/-- The grammar accepts `source`; `pairs` are the comments and the shebang lines of its parse. -/
def Accepts (source : List Char) (pairs : List (Pair Rule)) : Prop :=
  ∃ last, Parses grammar false (.rule .program) ⟨0, source⟩ (some (last, pairs))

end Quoin.Text
