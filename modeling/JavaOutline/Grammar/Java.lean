import JavaOutline.Grammar.Piece

/-!
# The grammar of Java

The right-hand side of every rule. The order of alternatives matters: where the input fits several
of them, the first is taken. Expressions and guarded patterns are given by their atoms and the
operators that may follow, each operator with its level; a higher level binds tighter. The operand
to the right of an operator of level `n` is parsed from level `n + 1` on where the operator
associates to the left, and from level `n` on where it associates to the right.
-/

namespace JavaOutline

open Piece

/-- The right-hand side of a rule. -/
def Rule.body : Rule → Body
  -- Compilation units
  | .compilationUnit => .plain <| choice [
      seq [optional [ref .packageDeclaration], many [ref .importDeclaration, tok .semi],
        many [ref .typeDeclaration, tok .semi]],
      seq [ref .moduleDeclaration, tok .endOfFile]]
  | .packageDeclaration => .plain <|
      seq [many [ref .annotationUse], tok .kwPackage, ref .qualifiedName, tok .semi]
  | .importDeclaration => .plain <|
      seq [tok .kwImport, optional [tok .kwStatic], ref .qualifiedName, optional [seq [tok .dot,
        tok .mul]], tok .semi]
  | .typeDeclaration => .plain <|
      seq [many [ref .classOrInterfaceModifier], choice [ref .classDeclaration,
        ref .enumDeclaration, ref .interfaceDeclaration, ref .annotationTypeDeclaration,
        ref .recordDeclaration]]
  -- Modifiers
  | .modifier => .plain <| choice [
      ref .classOrInterfaceModifier,
      tok .kwNative,
      tok .kwSynchronized,
      tok .kwTransient,
      tok .kwVolatile]
  | .classOrInterfaceModifier => .plain <| choice [
      ref .annotationUse,
      tok .kwPublic,
      tok .kwProtected,
      tok .kwPrivate,
      tok .kwStatic,
      tok .kwAbstract,
      tok .kwFinal,
      tok .kwStrictfp,
      tok .kwSealed,
      tok .kwNonSealed]
  | .variableModifier => .plain <| choice [
      tok .kwFinal,
      ref .annotationUse]
  -- Type declarations
  | .classDeclaration => .plain <|
      seq [tok .kwClass, ref .identifier, optional [ref .typeParameters],
        optional [seq [tok .kwExtends, ref .typeType]], optional [seq [tok .kwImplements,
        ref .typeList]], optional [seq [tok .kwPermits, ref .typeList]], ref .classBody]
  | .typeParameters => .plain <|
      seq [tok .lt, ref .typeParameter, many [seq [tok .comma, ref .typeParameter]], tok .gt]
  | .typeParameter => .plain <|
      seq [many [ref .annotationUse], ref .identifier, optional [seq [tok .kwExtends,
        many [ref .annotationUse], ref .typeBound]]]
  | .typeBound => .plain <| seq [ref .typeType, many [seq [tok .bitAnd, ref .typeType]]]
  | .enumDeclaration => .plain <|
      seq [tok .kwEnum, ref .identifier, optional [seq [tok .kwImplements, ref .typeList]],
        tok .lbrace, optional [ref .enumConstants], optional [tok .comma],
        optional [ref .enumBodyDeclarations], tok .rbrace]
  | .enumConstants => .plain <|
      seq [ref .enumConstant, many [seq [tok .comma, ref .enumConstant]]]
  | .enumConstant => .plain <|
      seq [many [ref .annotationUse], ref .identifier, optional [ref .arguments],
        optional [ref .classBody]]
  | .enumBodyDeclarations => .plain <| seq [tok .semi, many [ref .classBodyDeclaration]]
  | .interfaceDeclaration => .plain <|
      seq [tok .kwInterface, ref .identifier, optional [ref .typeParameters],
        optional [seq [tok .kwExtends, ref .typeList]], optional [seq [tok .kwPermits,
        ref .typeList]], ref .interfaceBody]
  | .classBody => .plain <| seq [tok .lbrace, many [ref .classBodyDeclaration], tok .rbrace]
  | .interfaceBody => .plain <|
      seq [tok .lbrace, many [ref .interfaceBodyDeclaration], tok .rbrace]
  | .classBodyDeclaration => .plain <| choice [
      tok .semi,
      seq [optional [tok .kwStatic], ref .block],
      seq [many [ref .modifier], ref .memberDeclaration]]
  -- Members
  | .memberDeclaration => .plain <| choice [
      ref .recordDeclaration,
      ref .methodDeclaration,
      ref .genericMethodDeclaration,
      ref .fieldDeclaration,
      ref .constructorDeclaration,
      ref .genericConstructorDeclaration,
      ref .interfaceDeclaration,
      ref .annotationTypeDeclaration,
      ref .classDeclaration,
      ref .enumDeclaration]
  | .methodDeclaration => .plain <|
      seq [ref .typeTypeOrVoid, ref .identifier, ref .formalParameters, many [seq [tok .lbrack,
        tok .rbrack]], optional [seq [tok .kwThrows, ref .qualifiedNameList]], ref .methodBody]
  | .methodBody => .plain <| choice [
      ref .block,
      tok .semi]
  | .typeTypeOrVoid => .plain <| choice [
      ref .typeType,
      tok .kwVoid]
  | .genericMethodDeclaration => .plain <| seq [ref .typeParameters, ref .methodDeclaration]
  | .genericConstructorDeclaration => .plain <|
      seq [ref .typeParameters, ref .constructorDeclaration]
  | .constructorDeclaration => .plain <|
      seq [ref .identifier, ref .formalParameters, optional [seq [tok .kwThrows,
        ref .qualifiedNameList]], named .constructorBody (ref .block)]
  | .compactConstructorDeclaration => .plain <|
      seq [many [ref .modifier], ref .identifier, named .constructorBody (ref .block)]
  | .fieldDeclaration => .plain <| seq [ref .typeType, ref .variableDeclarators, tok .semi]
  | .interfaceBodyDeclaration => .plain <| choice [
      seq [many [ref .modifier], ref .interfaceMemberDeclaration],
      tok .semi]
  | .interfaceMemberDeclaration => .plain <| choice [
      ref .recordDeclaration,
      ref .constDeclaration,
      ref .interfaceMethodDeclaration,
      ref .genericInterfaceMethodDeclaration,
      ref .interfaceDeclaration,
      ref .annotationTypeDeclaration,
      ref .classDeclaration,
      ref .enumDeclaration]
  | .constDeclaration => .plain <|
      seq [ref .typeType, ref .constantDeclarator, many [seq [tok .comma,
        ref .constantDeclarator]], tok .semi]
  | .constantDeclarator => .plain <|
      seq [ref .identifier, many [seq [tok .lbrack, tok .rbrack]], tok .assign,
        ref .variableInitializer]
  | .interfaceMethodDeclaration => .plain <|
      seq [many [ref .interfaceMethodModifier], ref .interfaceCommonBodyDeclaration]
  | .interfaceMethodModifier => .plain <| choice [
      ref .annotationUse,
      tok .kwPublic,
      tok .kwAbstract,
      tok .kwDefault,
      tok .kwStatic,
      tok .kwStrictfp]
  | .genericInterfaceMethodDeclaration => .plain <|
      seq [many [ref .interfaceMethodModifier], ref .typeParameters,
        ref .interfaceCommonBodyDeclaration]
  | .interfaceCommonBodyDeclaration => .plain <|
      seq [many [ref .annotationUse], ref .typeTypeOrVoid, ref .identifier, ref .formalParameters,
        many [seq [tok .lbrack, tok .rbrack]], optional [seq [tok .kwThrows,
        ref .qualifiedNameList]], ref .methodBody]
  -- Variables
  | .variableDeclarators => .plain <|
      seq [ref .variableDeclarator, many [seq [tok .comma, ref .variableDeclarator]]]
  | .variableDeclarator => .plain <|
      seq [ref .variableDeclaratorId, optional [seq [tok .assign, ref .variableInitializer]]]
  | .variableDeclaratorId => .plain <|
      seq [ref .identifier, many [seq [tok .lbrack, tok .rbrack]]]
  | .variableInitializer => .plain <| choice [
      ref .arrayInitializer,
      ref .expression]
  | .arrayInitializer => .plain <|
      seq [tok .lbrace, optional [seq [ref .variableInitializer, many [seq [tok .comma,
        ref .variableInitializer]], optional [tok .comma]]], tok .rbrace]
  -- Types and parameters
  | .classOrInterfaceType => .plain <|
      seq [many [seq [ref .identifier, optional [ref .typeArguments], tok .dot]],
        ref .typeIdentifier, optional [ref .typeArguments]]
  | .typeArgument => .plain <| choice [
      ref .typeType,
      seq [many [ref .annotationUse], tok .question, optional [seq [oneOf [.kwExtends, .kwSuper],
        ref .typeType]]]]
  | .qualifiedNameList => .plain <|
      seq [ref .qualifiedName, many [seq [tok .comma, ref .qualifiedName]]]
  | .formalParameters => .plain <|
      seq [tok .lparen, choice [optional [ref .receiverParameter], seq [ref .receiverParameter,
        optional [seq [tok .comma, ref .formalParameterList]]],
        optional [ref .formalParameterList]], tok .rparen]
  | .receiverParameter => .plain <|
      seq [ref .typeType, many [seq [ref .identifier, tok .dot]], tok .kwThis]
  | .formalParameterList => .plain <| choice [
      seq [ref .formalParameter, many [seq [tok .comma, ref .formalParameter]],
        optional [seq [tok .comma, ref .lastFormalParameter]]],
      ref .lastFormalParameter]
  | .formalParameter => .plain <|
      seq [many [ref .variableModifier], ref .typeType, ref .variableDeclaratorId]
  | .lastFormalParameter => .plain <|
      seq [many [ref .variableModifier], ref .typeType, many [ref .annotationUse], tok .ellipsis,
        ref .variableDeclaratorId]
  | .lambdaLVTIList => .plain <|
      seq [ref .lambdaLVTIParameter, many [seq [tok .comma, ref .lambdaLVTIParameter]]]
  | .lambdaLVTIParameter => .plain <|
      seq [many [ref .variableModifier], tok .kwVar, ref .identifier]
  | .qualifiedName => .plain <| seq [ref .identifier, many [seq [tok .dot, ref .identifier]]]
  -- Literals
  | .literal => .plain <| choice [
      ref .integerLiteral,
      ref .floatLiteral,
      tok .charLiteral,
      tok .stringLiteral,
      tok .boolLiteral,
      tok .nullLiteral,
      tok .textBlock]
  | .integerLiteral => .plain <| oneOf [.decimalLiteral, .hexLiteral, .octLiteral, .binaryLiteral]
  | .floatLiteral => .plain <| oneOf [.floatLiteral, .hexFloatLiteral]
  -- Annotations
  | .altAnnotationQualifiedName => .plain <|
      seq [many [seq [ref .identifier, tok .dot]], tok .atSign, ref .identifier]
  | .annotationUse => .plain <|
      seq [choice [seq [tok .atSign, ref .qualifiedName], ref .altAnnotationQualifiedName],
        optional [seq [tok .lparen, optional [ref .elementValuePairs, ref .elementValue],
        tok .rparen]]]
  | .elementValuePairs => .plain <|
      seq [ref .elementValuePair, many [seq [tok .comma, ref .elementValuePair]]]
  | .elementValuePair => .plain <| seq [ref .identifier, tok .assign, ref .elementValue]
  | .elementValue => .plain <| choice [
      ref .expression,
      ref .annotationUse,
      ref .elementValueArrayInitializer]
  | .elementValueArrayInitializer => .plain <|
      seq [tok .lbrace, optional [seq [ref .elementValue, many [seq [tok .comma,
        ref .elementValue]]]], optional [tok .comma], tok .rbrace]
  | .annotationTypeDeclaration => .plain <|
      seq [tok .atSign, tok .kwInterface, ref .identifier, ref .annotationTypeBody]
  | .annotationTypeBody => .plain <|
      seq [tok .lbrace, many [ref .annotationTypeElementDeclaration], tok .rbrace]
  | .annotationTypeElementDeclaration => .plain <| choice [
      seq [many [ref .modifier], ref .annotationTypeElementRest],
      tok .semi]
  | .annotationTypeElementRest => .plain <| choice [
      seq [ref .typeType, ref .annotationMethodOrConstantRest, tok .semi],
      seq [ref .classDeclaration, optional [tok .semi]],
      seq [ref .interfaceDeclaration, optional [tok .semi]],
      seq [ref .enumDeclaration, optional [tok .semi]],
      seq [ref .annotationTypeDeclaration, optional [tok .semi]],
      seq [ref .recordDeclaration, optional [tok .semi]]]
  | .annotationMethodOrConstantRest => .plain <| choice [
      ref .annotationMethodRest,
      ref .annotationConstantRest]
  | .annotationMethodRest => .plain <|
      seq [ref .identifier, tok .lparen, tok .rparen, optional [ref .defaultValue]]
  | .annotationConstantRest => .plain <| ref .variableDeclarators
  | .defaultValue => .plain <| seq [tok .kwDefault, ref .elementValue]
  -- Modules
  | .moduleDeclaration => .plain <|
      seq [optional [tok .kwOpen], tok .kwModule, ref .qualifiedName, ref .moduleBody]
  | .moduleBody => .plain <| seq [tok .lbrace, many [ref .moduleDirective], tok .rbrace]
  | .moduleDirective => .plain <| choice [
      seq [tok .kwRequires, many [ref .requiresModifier], ref .qualifiedName, tok .semi],
      seq [tok .kwExports, ref .qualifiedName, optional [seq [tok .kwTo, ref .qualifiedName]],
        tok .semi],
      seq [tok .kwOpens, ref .qualifiedName, optional [seq [tok .kwTo, ref .qualifiedName]],
        tok .semi],
      seq [tok .kwUses, ref .qualifiedName, tok .semi],
      seq [tok .kwProvides, ref .qualifiedName, tok .kwWith, ref .qualifiedName, tok .semi]]
  | .requiresModifier => .plain <| oneOf [.kwTransitive, .kwStatic]
  -- Records
  | .recordDeclaration => .plain <|
      seq [tok .kwRecord, ref .identifier, optional [ref .typeParameters], ref .recordHeader,
        optional [seq [tok .kwImplements, ref .typeList]], ref .recordBody]
  | .recordHeader => .plain <| seq [tok .lparen, optional [ref .recordComponentList], tok .rparen]
  | .recordComponentList => .plain <|
      seq [ref .recordComponent, many [seq [tok .comma, ref .recordComponent]]]
  | .recordComponent => .plain <| seq [ref .typeType, ref .identifier]
  | .recordBody => .plain <|
      seq [tok .lbrace, many [ref .classBodyDeclaration, ref .compactConstructorDeclaration],
        tok .rbrace]
  -- Blocks and statements
  | .block => .plain <| seq [tok .lbrace, many [ref .blockStatement], tok .rbrace]
  | .blockStatement => .plain <| choice [
      seq [ref .localVariableDeclaration, tok .semi],
      ref .localTypeDeclaration,
      ref .statement]
  | .localVariableDeclaration => .plain <|
      seq [many [ref .variableModifier], choice [seq [tok .kwVar, ref .identifier, tok .assign,
        ref .expression], seq [ref .typeType, ref .variableDeclarators]]]
  | .identifier => .plain <|
      oneOf [.identifier, .kwModule, .kwOpen, .kwRequires, .kwExports, .kwOpens, .kwTo, .kwUses,
        .kwProvides, .kwWith, .kwTransitive, .kwYield, .kwSealed, .kwPermits, .kwRecord, .kwVar]
  | .typeIdentifier => .plain <|
      oneOf [.identifier, .kwModule, .kwOpen, .kwRequires, .kwExports, .kwOpens, .kwTo, .kwUses,
        .kwProvides, .kwWith, .kwTransitive, .kwSealed, .kwPermits, .kwRecord]
  | .localTypeDeclaration => .plain <|
      seq [many [ref .classOrInterfaceModifier], choice [ref .classDeclaration,
        ref .interfaceDeclaration, ref .recordDeclaration]]
  | .statement => .plain <| choice [
      named .blockLabel (ref .block),
      seq [tok .kwAssert, ref .expression, optional [seq [tok .colon, ref .expression]],
        tok .semi],
      seq [tok .kwIf, ref .parExpression, ref .statement, optional [seq [tok .kwElse,
        ref .statement]]],
      seq [tok .kwFor, tok .lparen, ref .forControl, tok .rparen, ref .statement],
      seq [tok .kwWhile, ref .parExpression, ref .statement],
      seq [tok .kwDo, ref .statement, tok .kwWhile, ref .parExpression, tok .semi],
      seq [tok .kwTry, ref .block, choice [seq [many1 [ref .catchClause],
        optional [ref .finallyBlock]], ref .finallyBlock]],
      seq [tok .kwTry, ref .resourceSpecification, ref .block, many [ref .catchClause],
        optional [ref .finallyBlock]],
      seq [tok .kwSwitch, ref .parExpression, tok .lbrace, many [ref .switchBlockStatementGroup],
        many [ref .switchLabel], tok .rbrace],
      seq [tok .kwSynchronized, ref .parExpression, ref .block],
      seq [tok .kwReturn, optional [ref .expression], tok .semi],
      seq [tok .kwThrow, ref .expression, tok .semi],
      seq [tok .kwBreak, optional [ref .identifier], tok .semi],
      seq [tok .kwContinue, optional [ref .identifier], tok .semi],
      seq [tok .kwYield, ref .expression, tok .semi],
      tok .semi,
      seq [named .statementExpression (ref .expression), tok .semi],
      seq [ref .switchExpression, optional [tok .semi]],
      seq [named .identifierLabel (ref .identifier), tok .colon, ref .statement]]
  | .catchClause => .plain <|
      seq [tok .kwCatch, tok .lparen, many [ref .variableModifier], ref .catchType,
        ref .identifier, tok .rparen, ref .block]
  | .catchType => .plain <| seq [ref .qualifiedName, many [seq [tok .bitOr, ref .qualifiedName]]]
  | .finallyBlock => .plain <| seq [tok .kwFinally, ref .block]
  | .resourceSpecification => .plain <|
      seq [tok .lparen, ref .resources, optional [tok .semi], tok .rparen]
  | .resources => .plain <| seq [ref .resource, many [seq [tok .semi, ref .resource]]]
  | .resource => .plain <| choice [
      seq [many [ref .variableModifier], choice [seq [ref .classOrInterfaceType,
        ref .variableDeclaratorId], seq [tok .kwVar, ref .identifier]], tok .assign,
        ref .expression],
      ref .qualifiedName]
  | .switchBlockStatementGroup => .plain <|
      seq [many1 [ref .switchLabel], many1 [ref .blockStatement]]
  | .switchLabel => .plain <| choice [
      seq [tok .kwCase, choice [named .constantExpression (ref .expression),
        named .enumConstantName (tok .identifier), seq [ref .typeType,
        named .varName (ref .identifier)]], tok .colon],
      seq [tok .kwDefault, tok .colon]]
  | .forControl => .plain <| choice [
      ref .enhancedForControl,
      seq [optional [ref .forInit], tok .semi, optional [ref .expression], tok .semi,
        optional [named .forUpdate (ref .expressionList)]]]
  | .forInit => .plain <| choice [
      ref .localVariableDeclaration,
      ref .expressionList]
  | .enhancedForControl => .plain <|
      seq [many [ref .variableModifier], choice [ref .typeType, tok .kwVar],
        ref .variableDeclaratorId, tok .colon, ref .expression]
  -- Expressions
  | .parExpression => .plain <| seq [tok .lparen, ref .expression, tok .rparen]
  | .expressionList => .plain <| seq [ref .expression, many [seq [tok .comma, ref .expression]]]
  | .methodCall => .plain <| choice [
      seq [ref .identifier, tok .lparen, optional [ref .expressionList], tok .rparen],
      seq [tok .kwThis, tok .lparen, optional [ref .expressionList], tok .rparen],
      seq [tok .kwSuper, tok .lparen, optional [ref .expressionList], tok .rparen]]
  | .expression => .operators [
      ref .primary,
      ref .methodCall,
      seq [ref .typeType, tok .colonColon, choice [seq [optional [ref .typeArguments],
        ref .identifier], tok .kwNew]],
      seq [ref .classType, tok .colonColon, optional [ref .typeArguments], tok .kwNew],
      ref .switchExpression,
      seq [named .prefixOperator (oneOf [.add, .sub, .inc, .dec, .tilde, .bang]),
        refAt .expression 17],
      seq [tok .lparen, many [ref .annotationUse], ref .typeType, many [seq [tok .bitAnd,
        ref .typeType]], tok .rparen, refAt .expression 16],
      seq [tok .kwNew, ref .creator],
      ref .lambdaExpression] [
      ⟨14, seq [named .operator (oneOf [.mul, .div, .mod]), refAt .expression 15]⟩,
      ⟨13, seq [named .operator (oneOf [.add, .sub]), refAt .expression 14]⟩,
      ⟨12, seq [choice [seq [tok .lt, tok .lt], seq [tok .gt, tok .gt, tok .gt], seq [tok .gt,
        tok .gt]], refAt .expression 13]⟩,
      ⟨11, seq [named .operator (oneOf [.le, .ge, .gt, .lt]), refAt .expression 12]⟩,
      ⟨9, seq [named .operator (oneOf [.equal, .notEqual]), refAt .expression 10]⟩,
      ⟨8, seq [named .operator (tok .bitAnd), refAt .expression 9]⟩,
      ⟨7, seq [named .operator (tok .caret), refAt .expression 8]⟩,
      ⟨6, seq [named .operator (tok .bitOr), refAt .expression 7]⟩,
      ⟨5, seq [named .operator (tok .andAnd), refAt .expression 6]⟩,
      ⟨4, seq [named .operator (tok .orOr), refAt .expression 5]⟩,
      ⟨3, seq [named .operator (tok .question), ref .expression, tok .colon,
        refAt .expression 3]⟩,
      ⟨2, seq [named .operator (oneOf [.assign, .addAssign, .subAssign, .mulAssign, .divAssign,
        .andAssign, .orAssign, .xorAssign, .shiftRightAssign, .unsignedShiftRightAssign,
        .shiftLeftAssign, .modAssign]), refAt .expression 2]⟩,
      ⟨25, seq [tok .lbrack, ref .expression, tok .rbrack]⟩,
      ⟨24, seq [named .operator (tok .dot), choice [ref .identifier, ref .methodCall, tok .kwThis,
        seq [tok .kwNew, optional [ref .nonWildcardTypeArguments], ref .innerCreator],
        seq [tok .kwSuper, ref .superSuffix], ref .explicitGenericInvocation]]⟩,
      ⟨22, seq [tok .colonColon, optional [ref .typeArguments], ref .identifier]⟩,
      ⟨18, named .postfixOperator (oneOf [.inc, .dec])⟩,
      ⟨10, seq [named .operator (tok .kwInstanceof), choice [ref .typeType, ref .pattern]]⟩]
  | .pattern => .plain <|
      seq [many [ref .variableModifier], ref .typeType, many [ref .annotationUse],
        ref .identifier]
  | .lambdaExpression => .plain <| seq [ref .lambdaParameters, tok .arrow, ref .lambdaBody]
  | .lambdaParameters => .plain <| choice [
      ref .identifier,
      seq [tok .lparen, optional [ref .formalParameterList], tok .rparen],
      seq [tok .lparen, ref .identifier, many [seq [tok .comma, ref .identifier]], tok .rparen],
      seq [tok .lparen, optional [ref .lambdaLVTIList], tok .rparen]]
  | .lambdaBody => .plain <| choice [
      ref .expression,
      ref .block]
  | .primary => .plain <| choice [
      seq [tok .lparen, ref .expression, tok .rparen],
      tok .kwThis,
      tok .kwSuper,
      ref .literal,
      ref .identifier,
      seq [ref .typeTypeOrVoid, tok .dot, tok .kwClass],
      seq [ref .nonWildcardTypeArguments, choice [ref .explicitGenericInvocationSuffix,
        seq [tok .kwThis, ref .arguments]]]]
  -- Switch expressions
  | .switchExpression => .plain <|
      seq [tok .kwSwitch, ref .parExpression, tok .lbrace, many [ref .switchLabeledRule],
        tok .rbrace]
  | .switchLabeledRule => .plain <| choice [
      seq [tok .kwCase, choice [ref .expressionList, tok .nullLiteral, ref .guardedPattern],
        oneOf [.arrow, .colon], ref .switchRuleOutcome],
      seq [tok .kwDefault, oneOf [.arrow, .colon], ref .switchRuleOutcome]]
  | .guardedPattern => .operators [
      seq [tok .lparen, ref .guardedPattern, tok .rparen],
      seq [many [ref .variableModifier], ref .typeType, many [ref .annotationUse],
        ref .identifier, many [seq [tok .andAnd, ref .expression]]]] [
      ⟨1, seq [tok .andAnd, ref .expression]⟩]
  | .switchRuleOutcome => .plain <| choice [
      ref .block,
      many [ref .blockStatement]]
  -- Creation and type arguments
  | .classType => .plain <|
      seq [optional [seq [ref .classOrInterfaceType, tok .dot]], many [ref .annotationUse],
        ref .identifier, optional [ref .typeArguments]]
  | .creator => .plain <| choice [
      seq [ref .nonWildcardTypeArguments, ref .createdName, ref .classCreatorRest],
      seq [ref .createdName, choice [ref .arrayCreatorRest, ref .classCreatorRest]]]
  | .createdName => .plain <| choice [
      seq [ref .identifier, optional [ref .typeArgumentsOrDiamond], many [seq [tok .dot,
        ref .identifier, optional [ref .typeArgumentsOrDiamond]]]],
      ref .primitiveType]
  | .innerCreator => .plain <|
      seq [ref .identifier, optional [ref .nonWildcardTypeArgumentsOrDiamond],
        ref .classCreatorRest]
  | .arrayCreatorRest => .plain <|
      seq [tok .lbrack, choice [seq [tok .rbrack, many [seq [tok .lbrack, tok .rbrack]],
        ref .arrayInitializer], seq [ref .expression, tok .rbrack, many [seq [tok .lbrack,
        ref .expression, tok .rbrack]], many [seq [tok .lbrack, tok .rbrack]]]]]
  | .classCreatorRest => .plain <| seq [ref .arguments, optional [ref .classBody]]
  | .explicitGenericInvocation => .plain <|
      seq [ref .nonWildcardTypeArguments, ref .explicitGenericInvocationSuffix]
  | .typeArgumentsOrDiamond => .plain <| choice [
      seq [tok .lt, tok .gt],
      ref .typeArguments]
  | .nonWildcardTypeArgumentsOrDiamond => .plain <| choice [
      seq [tok .lt, tok .gt],
      ref .nonWildcardTypeArguments]
  | .nonWildcardTypeArguments => .plain <| seq [tok .lt, ref .typeList, tok .gt]
  | .typeList => .plain <| seq [ref .typeType, many [seq [tok .comma, ref .typeType]]]
  | .typeType => .plain <|
      seq [many [ref .annotationUse], choice [ref .classOrInterfaceType, ref .primitiveType],
        many [seq [many [ref .annotationUse], tok .lbrack, tok .rbrack]]]
  | .primitiveType => .plain <|
      oneOf [.kwBoolean, .kwChar, .kwByte, .kwShort, .kwInt, .kwLong, .kwFloat, .kwDouble]
  | .typeArguments => .plain <|
      seq [tok .lt, ref .typeArgument, many [seq [tok .comma, ref .typeArgument]], tok .gt]
  | .superSuffix => .plain <| choice [
      ref .arguments,
      seq [tok .dot, optional [ref .typeArguments], ref .identifier, optional [ref .arguments]]]
  | .explicitGenericInvocationSuffix => .plain <| choice [
      seq [tok .kwSuper, ref .superSuffix],
      seq [ref .identifier, ref .arguments]]
  | .arguments => .plain <| seq [tok .lparen, optional [ref .expressionList], tok .rparen]

end JavaOutline
