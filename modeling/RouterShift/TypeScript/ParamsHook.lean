import RouterShift.TypeScript.Component

/-! The life cycle hook for changed parameters. A class that has it needs the active route: a
    constructor parameter for it, and an import of its type. All of it is insertions into the text;
    a class that has the parameter and a file that has the import get none. -/

namespace RouterShift.TypeScript

/-- The declaration of the parameter. -/
def routeParameter : String := s!"private {Vocabulary.routeParam}: {Vocabulary.routeType}"

/-! ### Classes -/

/-- The column, in bytes, of a place: the bytes since the last line feed before it. -/
def columnOf (cs : List Char) (offset : Nat) : Nat :=
  match Text.cutAt? cs offset with
  | some (front, _) => Text.byteLength (front.reverse.takeWhile (· != '\n'))
  | none => 0

/-- The first method of a name in the body of a class. -/
def method? (cs : List Char) (body : Node) (name : String) : Option Node :=
  (body.partsOf .methodDefinition).find? (·.fieldText cs .name == name.toList)

/-- The parameter is there for the active route. -/
def isRouteParameter (cs : List Char) (parameter : Node) : Bool :=
  parameter.fieldText cs .pattern == Vocabulary.routeParam.toList

/-- The comma behind a parameter of a list. -/
def commaBehind? (list last : Node) : Option Node :=
  list.children.find? fun c => c.kind == .token "," && last.span.stop ≤ c.span.start

/-- The parameter as the last one of a list, unless it is there already. A list that ends in a
    comma still does so afterwards. -/
def injectParameter? (cs : List Char) (list : Node) : Option Replacement :=
  if list.parts.any (isRouteParameter cs) then none
  else
    match list.parts.getLast? with
    | none =>
      (list.children.find? (·.kind == .token "(")).map fun opening =>
        .insert opening.span.stop routeParameter
    | some last =>
      match commaBehind? list last with
      | some comma => some (.insert comma.span.stop s!" {routeParameter},")
      | none => some (.insert last.span.stop s!", {routeParameter}")

/-- The indent of a new member: that of the first one, or two. -/
def memberIndent (cs : List Char) (body : Node) : Nat :=
  match body.parts.head?.map (columnOf cs ·.span.start) with
  | some 0 | none => 2
  | some n => n

/-- A constructor that does nothing but take the parameter, as a member of its own. -/
def constructorText (indent : Nat) : String :=
  "\n" ++ String.ofList (List.replicate indent ' ') ++ "constructor(" ++ routeParameter
    ++ ") \x7b\x7d\n"

/-- The constructor as the first member of a class. -/
def newConstructor (cs : List Char) (body : Node) : Replacement :=
  .insert (body.span.start + 1) (constructorText (memberIndent cs body))

/-- The class is declared with a base class. -/
def extendsBase (c : Node) : Bool :=
  (c.children.filter (·.kind == .classHeritage)).any fun heritage =>
    heritage.children.any (·.kind == .extendsClause)

/-- The body of a class that has the hook. -/
def hookBody? (cs : List Char) (c : Node) : Option Node :=
  (c.child? .body).filter fun body => (method? cs body Vocabulary.paramsHook).isSome

/-- What gives a class with the hook the parameter. -/
def injection (path : Path) (cs : List Char) (c body : Node) :
    Except SourceError (Option Replacement) :=
  match method? cs body "constructor" with
  | some m => .ok ((m.child? .parameters).bind (injectParameter? cs))
  | none =>
    if extendsBase c then
      .error (.unsupportedConstructor path (String.ofList (c.fieldText cs .name)))
    else .ok (some (newConstructor cs body))

/-! ### Imports -/

/-- The braces of an import statement. -/
def names? (statement : Node) : Option Node :=
  (statement.part? .importClause).bind (·.part? .namedImports)

/-- The statement takes something from the router. -/
def isRouterImport (cs : List Char) (statement : Node) : Bool :=
  statement.kind == .importStatement &&
    Text.trim isQuote (statement.fieldText cs .source) == Vocabulary.routerModule.toList

/-- The import takes types only. -/
def isTypeOnly (statement : Node) : Bool := statement.hasToken "type"

/-- A name in braces that the module has for the type of the active route. -/
def isRouteSpecifier (cs : List Char) (specifier : Node) : Bool :=
  specifier.fieldText cs .name == Vocabulary.routeType.toList

/-- The type as one more name in the braces. -/
def extendNames (names : Node) : Replacement :=
  match (names.partsOf .importSpecifier).getLast? with
  | some last => .insert last.span.stop s!", {Vocabulary.routeType}"
  | none => .insert (names.span.start + 1) s!" {Vocabulary.routeType} "

/-- An import of its own. -/
def importText : String :=
  "import \x7b " ++ Vocabulary.routeType ++ " \x7d from '" ++ Vocabulary.routerModule ++ "';\n"

namespace SourceFile

variable [Reader]

/-- The imports from the router that take names in braces, each with its braces. -/
def routerImports (file : SourceFile) : List (Node × Node) :=
  (file.parts.filter (isRouterImport file.text.toList)).filterMap fun statement =>
    (names? statement).map (statement, ·)

/-- What makes the type importable: nothing when some import has it, one more name in an import
    that is not for types alone, or else an import of its own before the first statement. -/
def routeImport? (file : SourceFile) : Option Replacement :=
  let imports := file.routerImports
  if imports.any fun i => (i.2.partsOf .importSpecifier).any (isRouteSpecifier file.text.toList)
  then none
  else
    match imports.find? fun i => !isTypeOnly i.1 with
    | some i => some (extendNames i.2)
    | none => some (.insert ((file.parts.head?.map (·.span.start)).getD 0) importText)

/-- The classes that have the hook, each with its body. -/
def hooked (file : SourceFile) : List (Node × Node) :=
  file.declarations.filterMap fun d => (hookBody? file.text.toList d.node).map (d.node, ·)

/-- All insertions that a file needs; none when no class has the hook. -/
def hookEdits (file : SourceFile) : Except SourceError (List Replacement) :=
  if file.hooked.isEmpty then .ok []
  else do
    let injections ← file.hooked.mapM fun c => injection file.path file.text.toList c.1 c.2
    return injections.filterMap id ++ file.routeImport?.toList

/-- The file with the active route wherever the hook needs it. -/
def migrateParamsHook (file : SourceFile) : Except SourceError SourceFile :=
  match file.hookEdits with
  | .error e => .error e
  | .ok edits => file.edited edits

end SourceFile
end RouterShift.TypeScript
