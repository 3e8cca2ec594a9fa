/-!
# The rules of the grammar

Every inner node of a syntax tree belongs to one of the rules of the Java grammar. Their names are
part of what the program shows, so `Rule.name` spells them as the grammar does.
-/

namespace JavaOutline

/-- A rule of the Java grammar. -/
inductive Rule where
  | compilationUnit | packageDeclaration | importDeclaration | typeDeclaration | modifier
  | classOrInterfaceModifier | variableModifier | classDeclaration | typeParameters
  | typeParameter | typeBound | enumDeclaration | enumConstants | enumConstant
  | enumBodyDeclarations | interfaceDeclaration | classBody | interfaceBody
  | classBodyDeclaration | memberDeclaration | methodDeclaration | methodBody | typeTypeOrVoid
  | genericMethodDeclaration | genericConstructorDeclaration | constructorDeclaration
  | compactConstructorDeclaration | fieldDeclaration | interfaceBodyDeclaration
  | interfaceMemberDeclaration | constDeclaration | constantDeclarator
  | interfaceMethodDeclaration | interfaceMethodModifier | genericInterfaceMethodDeclaration
  | interfaceCommonBodyDeclaration | variableDeclarators | variableDeclarator
  | variableDeclaratorId | variableInitializer | arrayInitializer | classOrInterfaceType
  | typeArgument | qualifiedNameList | formalParameters | receiverParameter | formalParameterList
  | formalParameter | lastFormalParameter | lambdaLVTIList | lambdaLVTIParameter | qualifiedName
  | literal | integerLiteral | floatLiteral | altAnnotationQualifiedName | annotationUse
  | elementValuePairs | elementValuePair | elementValue | elementValueArrayInitializer
  | annotationTypeDeclaration | annotationTypeBody | annotationTypeElementDeclaration
  | annotationTypeElementRest | annotationMethodOrConstantRest | annotationMethodRest
  | annotationConstantRest | defaultValue | moduleDeclaration | moduleBody | moduleDirective
  | requiresModifier | recordDeclaration | recordHeader | recordComponentList | recordComponent
  | recordBody | block | blockStatement | localVariableDeclaration | identifier | typeIdentifier
  | localTypeDeclaration | statement | catchClause | catchType | finallyBlock
  | resourceSpecification | resources | resource | switchBlockStatementGroup | switchLabel
  | forControl | forInit | enhancedForControl | parExpression | expressionList | methodCall
  | expression | pattern | lambdaExpression | lambdaParameters | lambdaBody | primary
  | switchExpression | switchLabeledRule | guardedPattern | switchRuleOutcome | classType
  | creator | createdName | innerCreator | arrayCreatorRest | classCreatorRest
  | explicitGenericInvocation | typeArgumentsOrDiamond | nonWildcardTypeArgumentsOrDiamond
  | nonWildcardTypeArguments | typeList | typeType | primitiveType | typeArguments | superSuffix
  | explicitGenericInvocationSuffix | arguments
  deriving DecidableEq, Repr, Inhabited

namespace Rule

/-- The number of a rule in the order of the grammar, from 0. -/
def index (r : Rule) : Nat := r.ctorIdx

/-- How many rules there are. -/
def count : Nat := 126

/-- All rules, in the order of the grammar. -/
def all : List Rule := (List.range count).map ofNat

/-- The name of a rule. -/
def name : Rule → String
  | .compilationUnit => "compilationUnit"
  | .packageDeclaration => "packageDeclaration"
  | .importDeclaration => "importDeclaration"
  | .typeDeclaration => "typeDeclaration"
  | .modifier => "modifier"
  | .classOrInterfaceModifier => "classOrInterfaceModifier"
  | .variableModifier => "variableModifier"
  | .classDeclaration => "classDeclaration"
  | .typeParameters => "typeParameters"
  | .typeParameter => "typeParameter"
  | .typeBound => "typeBound"
  | .enumDeclaration => "enumDeclaration"
  | .enumConstants => "enumConstants"
  | .enumConstant => "enumConstant"
  | .enumBodyDeclarations => "enumBodyDeclarations"
  | .interfaceDeclaration => "interfaceDeclaration"
  | .classBody => "classBody"
  | .interfaceBody => "interfaceBody"
  | .classBodyDeclaration => "classBodyDeclaration"
  | .memberDeclaration => "memberDeclaration"
  | .methodDeclaration => "methodDeclaration"
  | .methodBody => "methodBody"
  | .typeTypeOrVoid => "typeTypeOrVoid"
  | .genericMethodDeclaration => "genericMethodDeclaration"
  | .genericConstructorDeclaration => "genericConstructorDeclaration"
  | .constructorDeclaration => "constructorDeclaration"
  | .compactConstructorDeclaration => "compactConstructorDeclaration"
  | .fieldDeclaration => "fieldDeclaration"
  | .interfaceBodyDeclaration => "interfaceBodyDeclaration"
  | .interfaceMemberDeclaration => "interfaceMemberDeclaration"
  | .constDeclaration => "constDeclaration"
  | .constantDeclarator => "constantDeclarator"
  | .interfaceMethodDeclaration => "interfaceMethodDeclaration"
  | .interfaceMethodModifier => "interfaceMethodModifier"
  | .genericInterfaceMethodDeclaration => "genericInterfaceMethodDeclaration"
  | .interfaceCommonBodyDeclaration => "interfaceCommonBodyDeclaration"
  | .variableDeclarators => "variableDeclarators"
  | .variableDeclarator => "variableDeclarator"
  | .variableDeclaratorId => "variableDeclaratorId"
  | .variableInitializer => "variableInitializer"
  | .arrayInitializer => "arrayInitializer"
  | .classOrInterfaceType => "classOrInterfaceType"
  | .typeArgument => "typeArgument"
  | .qualifiedNameList => "qualifiedNameList"
  | .formalParameters => "formalParameters"
  | .receiverParameter => "receiverParameter"
  | .formalParameterList => "formalParameterList"
  | .formalParameter => "formalParameter"
  | .lastFormalParameter => "lastFormalParameter"
  | .lambdaLVTIList => "lambdaLVTIList"
  | .lambdaLVTIParameter => "lambdaLVTIParameter"
  | .qualifiedName => "qualifiedName"
  | .literal => "literal"
  | .integerLiteral => "integerLiteral"
  | .floatLiteral => "floatLiteral"
  | .altAnnotationQualifiedName => "altAnnotationQualifiedName"
  | .annotationUse => "annotation"
  | .elementValuePairs => "elementValuePairs"
  | .elementValuePair => "elementValuePair"
  | .elementValue => "elementValue"
  | .elementValueArrayInitializer => "elementValueArrayInitializer"
  | .annotationTypeDeclaration => "annotationTypeDeclaration"
  | .annotationTypeBody => "annotationTypeBody"
  | .annotationTypeElementDeclaration => "annotationTypeElementDeclaration"
  | .annotationTypeElementRest => "annotationTypeElementRest"
  | .annotationMethodOrConstantRest => "annotationMethodOrConstantRest"
  | .annotationMethodRest => "annotationMethodRest"
  | .annotationConstantRest => "annotationConstantRest"
  | .defaultValue => "defaultValue"
  | .moduleDeclaration => "moduleDeclaration"
  | .moduleBody => "moduleBody"
  | .moduleDirective => "moduleDirective"
  | .requiresModifier => "requiresModifier"
  | .recordDeclaration => "recordDeclaration"
  | .recordHeader => "recordHeader"
  | .recordComponentList => "recordComponentList"
  | .recordComponent => "recordComponent"
  | .recordBody => "recordBody"
  | .block => "block"
  | .blockStatement => "blockStatement"
  | .localVariableDeclaration => "localVariableDeclaration"
  | .identifier => "identifier"
  | .typeIdentifier => "typeIdentifier"
  | .localTypeDeclaration => "localTypeDeclaration"
  | .statement => "statement"
  | .catchClause => "catchClause"
  | .catchType => "catchType"
  | .finallyBlock => "finallyBlock"
  | .resourceSpecification => "resourceSpecification"
  | .resources => "resources"
  | .resource => "resource"
  | .switchBlockStatementGroup => "switchBlockStatementGroup"
  | .switchLabel => "switchLabel"
  | .forControl => "forControl"
  | .forInit => "forInit"
  | .enhancedForControl => "enhancedForControl"
  | .parExpression => "parExpression"
  | .expressionList => "expressionList"
  | .methodCall => "methodCall"
  | .expression => "expression"
  | .pattern => "pattern"
  | .lambdaExpression => "lambdaExpression"
  | .lambdaParameters => "lambdaParameters"
  | .lambdaBody => "lambdaBody"
  | .primary => "primary"
  | .switchExpression => "switchExpression"
  | .switchLabeledRule => "switchLabeledRule"
  | .guardedPattern => "guardedPattern"
  | .switchRuleOutcome => "switchRuleOutcome"
  | .classType => "classType"
  | .creator => "creator"
  | .createdName => "createdName"
  | .innerCreator => "innerCreator"
  | .arrayCreatorRest => "arrayCreatorRest"
  | .classCreatorRest => "classCreatorRest"
  | .explicitGenericInvocation => "explicitGenericInvocation"
  | .typeArgumentsOrDiamond => "typeArgumentsOrDiamond"
  | .nonWildcardTypeArgumentsOrDiamond => "nonWildcardTypeArgumentsOrDiamond"
  | .nonWildcardTypeArguments => "nonWildcardTypeArguments"
  | .typeList => "typeList"
  | .typeType => "typeType"
  | .primitiveType => "primitiveType"
  | .typeArguments => "typeArguments"
  | .superSuffix => "superSuffix"
  | .explicitGenericInvocationSuffix => "explicitGenericInvocationSuffix"
  | .arguments => "arguments"

/-- The rule with this name. -/
def ofName? (s : String) : Option Rule := all.find? (·.name == s)

end Rule

end JavaOutline
