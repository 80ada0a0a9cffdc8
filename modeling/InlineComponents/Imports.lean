import InlineComponents.Failure
import InlineComponents.Markup.Attribute
import InlineComponents.Markup.Tokens
import InlineComponents.SubComponent

namespace InlineComponents

namespace Import

/-- The name that the import binds: the one that its file's name carries. -/
def binding (i : Import) : String :=
  (declaredName? i.fileName).getD i.name

def statement (i : Import) : String :=
  "\nimport " ++ i.binding ++ " from './" ++ i.fileName ++ "';"

end Import

/-- One statement for each import, in order. -/
def importBlock (imports : List Import) : String :=
  String.join (imports.map Import.statement)

/-- Whether a script's opening tag marks it as one that runs once for the module. -/
def isModuleScript (inside : List Char) : Bool :=
  attributeValue inside "context".toList = some "module".toList ||
    (words isBlank inside).any fun word => dropTail (· = '/') word = "module".toList

/-- The elements that are open after a token. -/
def OpenElements.after (opened : OpenElements) : Token → OpenElements
  | .closing name _ => opened.close (String.ofList name)
  | .opening name inside =>
    let name := String.ofList name
    let outer := opened.endOmitted name
    if endsWithSlash inside || isVoid name then outer else outer.push name
  | _ => opened

/-- Each token with the elements that are open before it. -/
def placed (tokens : List Token) : List (OpenElements × Token) :=
  go [] [] tokens
where
  go (opened : OpenElements) (found : List (OpenElements × Token)) :
      List Token → List (OpenElements × Token)
    | [] => found.reverse
    | token :: tokens => go (opened.after token) ((opened, token) :: found) tokens

/-- A script that no element contains. -/
def isTopScript : OpenElements × Token → Bool
  | ([], .script ..) => true
  | _ => false

def isInstanceScript : OpenElements × Token → Bool
  | ([], .script inside _) => !isModuleScript inside
  | _ => false

/-- The list before and after the first element that satisfies `p`, and that element. -/
def splitFirst {α : Type} (p : α → Bool) (l : List α) : Option (List α × α × List α) :=
  match l.dropWhile fun a => !p a with
  | [] => none
  | a :: after => some (l.takeWhile fun a => !p a, a, after)

/-- The script that takes the imports: the first at the top that is none of the module, or the
first at the top. -/
def importTarget (tokens : List Token) : Option (List Token × Token × List Token) :=
  let all := placed tokens
  (splitFirst isInstanceScript all).or (splitFirst isTopScript all) |>.map
    fun (before, (_, script), after) => (before.map Prod.snd, script, after.map Prod.snd)

def Token.isUnclosedScript : Token → Bool
  | .unclosedScript _ => true
  | _ => false

/-- The text put in front of a script's content. -/
def Token.prepend (block : List Char) : Token → Token
  | .script inside content => .script inside (block ++ content)
  | token => token

/-- The source with a statement for each import, in the script that takes them or, without one, in
a new script at the top. -/
def injectImports (residual : String) (file : Path) (imports : List Import) :
    Except Failure String :=
  if imports.isEmpty then .ok residual
  else
    let block := importBlock imports
    let all := tokens residual.toList
    if all.any Token.isUnclosedScript then .error (.malformedScript file)
    else
      match importTarget all with
      | some (before, script, after) =>
        .ok (String.ofList (tokensText (before ++ script.prepend block.toList :: after)))
      | none => .ok ("<script>" ++ block ++ "\n</script>\n" ++ residual)

end InlineComponents
