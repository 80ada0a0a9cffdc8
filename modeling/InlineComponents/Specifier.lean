import InlineComponents.Text.Blank
import InlineComponents.Text.Cut

namespace InlineComponents

/-- What may not begin the name of a package. -/
def beginsElsewhere (c : Char) : Bool :=
  c = '.' || c = '/' || c = '\\' || c.toNat = 0

/-- Whether a specifier names a package, and not a file or something virtual. -/
def isBare (specifier : String) : Bool :=
  match specifier.toList with
  | [] => false
  | c :: cs => !beginsElsewhere c && !(c :: cs).contains ':'

/-- The text before the first slash, and the rest from that slash on. -/
def toSlash (s : List Char) : List Char × List Char :=
  (s.takeWhile (· ≠ '/'), s.dropWhile (· ≠ '/'))

/-- What is behind a package's name: all after the slash, without the slashes at the end. -/
def subpath (rest : List Char) : List Char :=
  dropTail (· = '/') (rest.drop 1)

/-- A specifier as the name of a package, with its scope if it has one, and what is asked for
inside the package. A scope alone is no name. -/
def splitSpecifier (specifier : String) : Option (String × String) :=
  let (first, rest) := toSlash specifier.toList
  if first.head? = some '@' then
    match rest with
    | [] => none
    | slash :: inner =>
      let (name, rest) := toSlash inner
      if name = [] then none
      else some (String.ofList (first ++ slash :: name), String.ofList (subpath rest))
  else if first = [] then none
  else some (String.ofList first, String.ofList (subpath rest))

def hiddenPackagesAdvice : String :=
  "The following packages do not export their package.json, so their \"svelte\" field could not " ++
    "be checked. If importing components from one of them fails, ask its maintainers to add " ++
    "\"./package.json\" to \"exports\":"

/-- The advice about packages whose metadata is hidden, with a line for each of them. -/
def hiddenPackagesWarning (packages : List String) : Option String :=
  if packages.isEmpty then none
  else some (hiddenPackagesAdvice ++ String.join (packages.map ("\n- " ++ ·)))

end InlineComponents
