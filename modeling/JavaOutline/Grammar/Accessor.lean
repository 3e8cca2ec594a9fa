import JavaOutline.Grammar.Rule
import JavaOutline.Token.Kind

/-!
# Asking a node for its children

The children of a node are asked for by the token or rule they belong to. By what a node can be
asked, and whether the answer is one child or a list, is fixed for each rule and does not depend on
the node at hand. The table `Rule.fields` stands beside the right-hand sides of the rules: nothing
but the grammar's author makes them agree.
-/

namespace JavaOutline

/-- What children are asked for by. -/
inductive Accessor where
  | token (k : Kind)
  | rule (r : Rule)
  deriving DecidableEq, Repr, Inhabited

/-- The name of an accessor. -/
def Accessor.name : Accessor → String
  | .token k => k.name
  | .rule r => r.name

/-- An accessor of a rule. -/
structure Field where
  accessor : Accessor
  /-- Is the answer a list? -/
  isList : Bool
  deriving DecidableEq, Repr, Inhabited

namespace Field

/-- One token of a kind. -/
def token (k : Kind) : Field := ⟨.token k, false⟩

/-- All tokens of a kind. -/
def tokens (k : Kind) : Field := ⟨.token k, true⟩

/-- One child of a rule. -/
def child (r : Rule) : Field := ⟨.rule r, false⟩

/-- All children of a rule. -/
def children (r : Rule) : Field := ⟨.rule r, true⟩

end Field

namespace Rule

/-- By what the nodes of a rule can be asked. -/
def fields : Rule → List Field
  | .compilationUnit => [
    .child .packageDeclaration, .children .importDeclaration, .tokens .semi,
    .children .typeDeclaration, .child .moduleDeclaration, .token .endOfFile]
  | .packageDeclaration => [
    .token .kwPackage, .child .qualifiedName, .token .semi, .children .annotationUse]
  | .importDeclaration => [
    .token .kwImport, .child .qualifiedName, .token .semi, .token .kwStatic, .token .dot,
    .token .mul]
  | .typeDeclaration => [
    .child .classDeclaration, .child .enumDeclaration, .child .interfaceDeclaration,
    .child .annotationTypeDeclaration, .child .recordDeclaration,
    .children .classOrInterfaceModifier]
  | .modifier => [
    .child .classOrInterfaceModifier, .token .kwNative, .token .kwSynchronized, .token .kwTransient,
    .token .kwVolatile]
  | .classOrInterfaceModifier => [
    .child .annotationUse, .token .kwPublic, .token .kwProtected, .token .kwPrivate,
    .token .kwStatic, .token .kwAbstract, .token .kwFinal, .token .kwStrictfp, .token .kwSealed,
    .token .kwNonSealed]
  | .variableModifier => [.token .kwFinal, .child .annotationUse]
  | .classDeclaration => [
    .token .kwClass, .child .identifier, .child .classBody, .child .typeParameters,
    .token .kwExtends, .child .typeType, .token .kwImplements, .children .typeList,
    .token .kwPermits]
  | .typeParameters => [.token .lt, .children .typeParameter, .token .gt, .tokens .comma]
  | .typeParameter => [
    .child .identifier, .children .annotationUse, .token .kwExtends, .child .typeBound]
  | .typeBound => [.children .typeType, .tokens .bitAnd]
  | .enumDeclaration => [
    .token .kwEnum, .child .identifier, .token .lbrace, .token .rbrace, .token .kwImplements,
    .child .typeList, .child .enumConstants, .token .comma, .child .enumBodyDeclarations]
  | .enumConstants => [.children .enumConstant, .tokens .comma]
  | .enumConstant => [
    .child .identifier, .children .annotationUse, .child .arguments, .child .classBody]
  | .enumBodyDeclarations => [.token .semi, .children .classBodyDeclaration]
  | .interfaceDeclaration => [
    .token .kwInterface, .child .identifier, .child .interfaceBody, .child .typeParameters,
    .token .kwExtends, .children .typeList, .token .kwPermits]
  | .classBody => [.token .lbrace, .token .rbrace, .children .classBodyDeclaration]
  | .interfaceBody => [.token .lbrace, .token .rbrace, .children .interfaceBodyDeclaration]
  | .classBodyDeclaration => [
    .token .semi, .child .block, .token .kwStatic, .child .memberDeclaration, .children .modifier]
  | .memberDeclaration => [
    .child .recordDeclaration, .child .methodDeclaration, .child .genericMethodDeclaration,
    .child .fieldDeclaration, .child .constructorDeclaration, .child .genericConstructorDeclaration,
    .child .interfaceDeclaration, .child .annotationTypeDeclaration, .child .classDeclaration,
    .child .enumDeclaration]
  | .methodDeclaration => [
    .child .typeTypeOrVoid, .child .identifier, .child .formalParameters, .child .methodBody,
    .tokens .lbrack, .tokens .rbrack, .token .kwThrows, .child .qualifiedNameList]
  | .methodBody => [.child .block, .token .semi]
  | .typeTypeOrVoid => [.child .typeType, .token .kwVoid]
  | .genericMethodDeclaration => [.child .typeParameters, .child .methodDeclaration]
  | .genericConstructorDeclaration => [.child .typeParameters, .child .constructorDeclaration]
  | .constructorDeclaration => [
    .child .identifier, .child .formalParameters, .child .block, .token .kwThrows,
    .child .qualifiedNameList]
  | .compactConstructorDeclaration => [.child .identifier, .child .block, .children .modifier]
  | .fieldDeclaration => [.child .typeType, .child .variableDeclarators, .token .semi]
  | .interfaceBodyDeclaration => [
    .child .interfaceMemberDeclaration, .children .modifier, .token .semi]
  | .interfaceMemberDeclaration => [
    .child .recordDeclaration, .child .constDeclaration, .child .interfaceMethodDeclaration,
    .child .genericInterfaceMethodDeclaration, .child .interfaceDeclaration,
    .child .annotationTypeDeclaration, .child .classDeclaration, .child .enumDeclaration]
  | .constDeclaration => [
    .child .typeType, .children .constantDeclarator, .token .semi, .tokens .comma]
  | .constantDeclarator => [
    .child .identifier, .token .assign, .child .variableInitializer, .tokens .lbrack,
    .tokens .rbrack]
  | .interfaceMethodDeclaration => [
    .child .interfaceCommonBodyDeclaration, .children .interfaceMethodModifier]
  | .interfaceMethodModifier => [
    .child .annotationUse, .token .kwPublic, .token .kwAbstract, .token .kwDefault,
    .token .kwStatic, .token .kwStrictfp]
  | .genericInterfaceMethodDeclaration => [
    .child .typeParameters, .child .interfaceCommonBodyDeclaration,
    .children .interfaceMethodModifier]
  | .interfaceCommonBodyDeclaration => [
    .child .typeTypeOrVoid, .child .identifier, .child .formalParameters, .child .methodBody,
    .children .annotationUse, .tokens .lbrack, .tokens .rbrack, .token .kwThrows,
    .child .qualifiedNameList]
  | .variableDeclarators => [.children .variableDeclarator, .tokens .comma]
  | .variableDeclarator => [
    .child .variableDeclaratorId, .token .assign, .child .variableInitializer]
  | .variableDeclaratorId => [.child .identifier, .tokens .lbrack, .tokens .rbrack]
  | .variableInitializer => [.child .arrayInitializer, .child .expression]
  | .arrayInitializer => [
    .token .lbrace, .token .rbrace, .children .variableInitializer, .tokens .comma]
  | .classOrInterfaceType => [
    .child .typeIdentifier, .children .identifier, .tokens .dot, .children .typeArguments]
  | .typeArgument => [
    .child .typeType, .token .question, .children .annotationUse, .token .kwExtends,
    .token .kwSuper]
  | .qualifiedNameList => [.children .qualifiedName, .tokens .comma]
  | .formalParameters => [
    .token .lparen, .token .rparen, .child .receiverParameter, .token .comma,
    .child .formalParameterList]
  | .receiverParameter => [.child .typeType, .token .kwThis, .children .identifier, .tokens .dot]
  | .formalParameterList => [
    .children .formalParameter, .tokens .comma, .child .lastFormalParameter]
  | .formalParameter => [
    .child .typeType, .child .variableDeclaratorId, .children .variableModifier]
  | .lastFormalParameter => [
    .child .typeType, .token .ellipsis, .child .variableDeclaratorId, .children .variableModifier,
    .children .annotationUse]
  | .lambdaLVTIList => [.children .lambdaLVTIParameter, .tokens .comma]
  | .lambdaLVTIParameter => [.token .kwVar, .child .identifier, .children .variableModifier]
  | .qualifiedName => [.children .identifier, .tokens .dot]
  | .literal => [
    .child .integerLiteral, .child .floatLiteral, .token .charLiteral, .token .stringLiteral,
    .token .boolLiteral, .token .nullLiteral, .token .textBlock]
  | .integerLiteral => [
    .token .decimalLiteral, .token .hexLiteral, .token .octLiteral, .token .binaryLiteral]
  | .floatLiteral => [.token .floatLiteral, .token .hexFloatLiteral]
  | .altAnnotationQualifiedName => [.token .atSign, .children .identifier, .tokens .dot]
  | .annotationUse => [
    .token .atSign, .child .qualifiedName, .child .altAnnotationQualifiedName, .token .lparen,
    .token .rparen, .child .elementValuePairs, .child .elementValue]
  | .elementValuePairs => [.children .elementValuePair, .tokens .comma]
  | .elementValuePair => [.child .identifier, .token .assign, .child .elementValue]
  | .elementValue => [
    .child .expression, .child .annotationUse, .child .elementValueArrayInitializer]
  | .elementValueArrayInitializer => [
    .token .lbrace, .token .rbrace, .children .elementValue, .tokens .comma]
  | .annotationTypeDeclaration => [
    .token .atSign, .token .kwInterface, .child .identifier, .child .annotationTypeBody]
  | .annotationTypeBody => [
    .token .lbrace, .token .rbrace, .children .annotationTypeElementDeclaration]
  | .annotationTypeElementDeclaration => [
    .child .annotationTypeElementRest, .children .modifier, .token .semi]
  | .annotationTypeElementRest => [
    .child .typeType, .child .annotationMethodOrConstantRest, .token .semi,
    .child .classDeclaration, .child .interfaceDeclaration, .child .enumDeclaration,
    .child .annotationTypeDeclaration, .child .recordDeclaration]
  | .annotationMethodOrConstantRest => [
    .child .annotationMethodRest, .child .annotationConstantRest]
  | .annotationMethodRest => [
    .child .identifier, .token .lparen, .token .rparen, .child .defaultValue]
  | .annotationConstantRest => [.child .variableDeclarators]
  | .defaultValue => [.token .kwDefault, .child .elementValue]
  | .moduleDeclaration => [
    .token .kwModule, .child .qualifiedName, .child .moduleBody, .token .kwOpen]
  | .moduleBody => [.token .lbrace, .token .rbrace, .children .moduleDirective]
  | .moduleDirective => [
    .token .kwRequires, .children .qualifiedName, .token .semi, .children .requiresModifier,
    .token .kwExports, .token .kwTo, .token .kwOpens, .token .kwUses, .token .kwProvides,
    .token .kwWith]
  | .requiresModifier => [.token .kwTransitive, .token .kwStatic]
  | .recordDeclaration => [
    .token .kwRecord, .child .identifier, .child .recordHeader, .child .recordBody,
    .child .typeParameters, .token .kwImplements, .child .typeList]
  | .recordHeader => [.token .lparen, .token .rparen, .child .recordComponentList]
  | .recordComponentList => [.children .recordComponent, .tokens .comma]
  | .recordComponent => [.child .typeType, .child .identifier]
  | .recordBody => [
    .token .lbrace, .token .rbrace, .children .classBodyDeclaration,
    .children .compactConstructorDeclaration]
  | .block => [.token .lbrace, .token .rbrace, .children .blockStatement]
  | .blockStatement => [
    .child .localVariableDeclaration, .token .semi, .child .localTypeDeclaration, .child .statement]
  | .localVariableDeclaration => [
    .token .kwVar, .child .identifier, .token .assign, .child .expression, .child .typeType,
    .child .variableDeclarators, .children .variableModifier]
  | .identifier => [
    .token .identifier, .token .kwModule, .token .kwOpen, .token .kwRequires, .token .kwExports,
    .token .kwOpens, .token .kwTo, .token .kwUses, .token .kwProvides, .token .kwWith,
    .token .kwTransitive, .token .kwYield, .token .kwSealed, .token .kwPermits, .token .kwRecord,
    .token .kwVar]
  | .typeIdentifier => [
    .token .identifier, .token .kwModule, .token .kwOpen, .token .kwRequires, .token .kwExports,
    .token .kwOpens, .token .kwTo, .token .kwUses, .token .kwProvides, .token .kwWith,
    .token .kwTransitive, .token .kwSealed, .token .kwPermits, .token .kwRecord]
  | .localTypeDeclaration => [
    .child .classDeclaration, .child .interfaceDeclaration, .child .recordDeclaration,
    .children .classOrInterfaceModifier]
  | .statement => [
    .child .block, .token .kwAssert, .children .expression, .token .semi, .token .colon,
    .token .kwIf, .child .parExpression, .children .statement, .token .kwElse, .token .kwFor,
    .token .lparen, .child .forControl, .token .rparen, .token .kwWhile, .token .kwDo,
    .token .kwTry, .child .finallyBlock, .children .catchClause, .child .resourceSpecification,
    .token .kwSwitch, .token .lbrace, .token .rbrace, .children .switchBlockStatementGroup,
    .children .switchLabel, .token .kwSynchronized, .token .kwReturn, .token .kwThrow,
    .token .kwBreak, .child .identifier, .token .kwContinue, .token .kwYield,
    .child .switchExpression]
  | .catchClause => [
    .token .kwCatch, .token .lparen, .child .catchType, .child .identifier, .token .rparen,
    .child .block, .children .variableModifier]
  | .catchType => [.children .qualifiedName, .tokens .bitOr]
  | .finallyBlock => [.token .kwFinally, .child .block]
  | .resourceSpecification => [.token .lparen, .child .resources, .token .rparen, .token .semi]
  | .resources => [.children .resource, .tokens .semi]
  | .resource => [
    .token .assign, .child .expression, .child .classOrInterfaceType, .child .variableDeclaratorId,
    .token .kwVar, .child .identifier, .children .variableModifier, .child .qualifiedName]
  | .switchBlockStatementGroup => [.children .switchLabel, .children .blockStatement]
  | .switchLabel => [
    .token .kwCase, .token .colon, .child .typeType, .child .expression, .token .identifier,
    .child .identifier, .token .kwDefault]
  | .forControl => [
    .child .enhancedForControl, .tokens .semi, .child .forInit, .child .expression,
    .child .expressionList]
  | .forInit => [.child .localVariableDeclaration, .child .expressionList]
  | .enhancedForControl => [
    .child .variableDeclaratorId, .token .colon, .child .expression, .child .typeType,
    .token .kwVar, .children .variableModifier]
  | .parExpression => [.token .lparen, .child .expression, .token .rparen]
  | .expressionList => [.children .expression, .tokens .comma]
  | .methodCall => [
    .child .identifier, .token .lparen, .token .rparen, .child .expressionList, .token .kwThis,
    .token .kwSuper]
  | .expression => [
    .child .primary, .child .methodCall, .children .typeType, .token .colonColon,
    .child .identifier, .token .kwNew, .child .typeArguments, .child .classType,
    .child .switchExpression, .children .expression, .token .add, .token .sub, .token .inc,
    .token .dec, .token .tilde, .token .bang, .token .lparen, .token .rparen,
    .children .annotationUse, .tokens .bitAnd, .child .creator, .child .lambdaExpression,
    .token .mul, .token .div, .token .mod, .tokens .lt, .tokens .gt, .token .le, .token .ge,
    .token .equal, .token .notEqual, .token .caret, .token .bitOr, .token .andAnd, .token .orOr,
    .token .colon, .token .question, .token .assign, .token .addAssign, .token .subAssign,
    .token .mulAssign, .token .divAssign, .token .andAssign, .token .orAssign, .token .xorAssign,
    .token .shiftRightAssign, .token .unsignedShiftRightAssign, .token .shiftLeftAssign,
    .token .modAssign, .token .lbrack, .token .rbrack, .token .dot, .token .kwThis,
    .child .innerCreator, .token .kwSuper, .child .superSuffix, .child .explicitGenericInvocation,
    .child .nonWildcardTypeArguments, .token .kwInstanceof, .child .pattern]
  | .pattern => [
    .child .typeType, .child .identifier, .children .variableModifier, .children .annotationUse]
  | .lambdaExpression => [.child .lambdaParameters, .token .arrow, .child .lambdaBody]
  | .lambdaParameters => [
    .children .identifier, .token .lparen, .token .rparen, .child .formalParameterList,
    .tokens .comma, .child .lambdaLVTIList]
  | .lambdaBody => [.child .expression, .child .block]
  | .primary => [
    .token .lparen, .child .expression, .token .rparen, .token .kwThis, .token .kwSuper,
    .child .literal, .child .identifier, .child .typeTypeOrVoid, .token .dot, .token .kwClass,
    .child .nonWildcardTypeArguments, .child .explicitGenericInvocationSuffix, .child .arguments]
  | .switchExpression => [
    .token .kwSwitch, .child .parExpression, .token .lbrace, .token .rbrace,
    .children .switchLabeledRule]
  | .switchLabeledRule => [
    .token .kwCase, .child .switchRuleOutcome, .token .arrow, .token .colon, .child .expressionList,
    .token .nullLiteral, .child .guardedPattern, .token .kwDefault]
  | .guardedPattern => [
    .token .lparen, .child .guardedPattern, .token .rparen, .child .typeType, .child .identifier,
    .children .variableModifier, .children .annotationUse, .tokens .andAnd, .children .expression]
  | .switchRuleOutcome => [.child .block, .children .blockStatement]
  | .classType => [
    .child .identifier, .child .classOrInterfaceType, .token .dot, .children .annotationUse,
    .child .typeArguments]
  | .creator => [
    .child .nonWildcardTypeArguments, .child .createdName, .child .classCreatorRest,
    .child .arrayCreatorRest]
  | .createdName => [
    .children .identifier, .children .typeArgumentsOrDiamond, .tokens .dot, .child .primitiveType]
  | .innerCreator => [
    .child .identifier, .child .classCreatorRest, .child .nonWildcardTypeArgumentsOrDiamond]
  | .arrayCreatorRest => [
    .tokens .lbrack, .tokens .rbrack, .child .arrayInitializer, .children .expression]
  | .classCreatorRest => [.child .arguments, .child .classBody]
  | .explicitGenericInvocation => [
    .child .nonWildcardTypeArguments, .child .explicitGenericInvocationSuffix]
  | .typeArgumentsOrDiamond => [.token .lt, .token .gt, .child .typeArguments]
  | .nonWildcardTypeArgumentsOrDiamond => [.token .lt, .token .gt, .child .nonWildcardTypeArguments]
  | .nonWildcardTypeArguments => [.token .lt, .child .typeList, .token .gt]
  | .typeList => [.children .typeType, .tokens .comma]
  | .typeType => [
    .child .classOrInterfaceType, .child .primitiveType, .children .annotationUse, .tokens .lbrack,
    .tokens .rbrack]
  | .primitiveType => [
    .token .kwBoolean, .token .kwChar, .token .kwByte, .token .kwShort, .token .kwInt,
    .token .kwLong, .token .kwFloat, .token .kwDouble]
  | .typeArguments => [.token .lt, .children .typeArgument, .token .gt, .tokens .comma]
  | .superSuffix => [.child .arguments, .token .dot, .child .identifier, .child .typeArguments]
  | .explicitGenericInvocationSuffix => [
    .token .kwSuper, .child .superSuffix, .child .identifier, .child .arguments]
  | .arguments => [.token .lparen, .token .rparen, .child .expressionList]

/-- The accessors of a rule. -/
def accessors (r : Rule) : List Accessor := r.fields.map (·.accessor)

/-- Does the accessor of a rule give a list? -/
def givesList (r : Rule) (a : Accessor) : Bool := r.fields.contains ⟨a, true⟩

/-- The accessor of a rule with this name. -/
def accessor? (r : Rule) (name : String) : Option Accessor := r.accessors.find? (·.name == name)

end Rule

end JavaOutline
