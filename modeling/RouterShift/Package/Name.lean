import RouterShift.Text.Blank
import RouterShift.Text.Cut

/-! Names of packages: the name a package gets in the maintenance scope, replacing a name in a text,
    and what the addresses of repositories say about names. -/

namespace RouterShift.PackageName

def maintenanceScope : String := "@ngx-maintenance"

/-- The name without its scope; a name that starts with `@` and has no slash is taken whole. -/
def unscoped (package : String) : String :=
  match Text.afterStart? ['@'] package.toList with
  | none => package
  | some named =>
    match Text.cutFirst? ['/'] named with
    | none => package
    | some (_, name) => String.ofList name

/-- The name of a package in the maintenance scope. -/
def maintenance (package : String) : String := s!"{maintenanceScope}/{unscoped package}"

/-- Occurrences of `old` replaced by `new`, from the left and not overlapping, but for those that
    have `lead` just before them. `before` is the text up to here as it was, backwards. -/
def replaceFrom (old new : List Char) (lead : Option (List Char)) (before cs : List Char) :
    List Char :=
  match cs with
  | [] => []
  | c :: rest =>
    match h : Text.afterStart? old (c :: rest) with
    | none => c :: replaceFrom old new lead (c :: before) rest
    | some after =>
      if hold : old = [] then c :: rest
      else
        let isMoved := lead.any fun l => l.reverse.isPrefixOf before
        (if isMoved then old else new) ++ replaceFrom old new lead (old.reverse ++ before) after
termination_by cs.length
decreasing_by
  · exact Nat.lt_succ_self _
  · exact Text.length_lt_of_afterStart? h hold

/-- Every occurrence of a package name replaced by the new one, but for those that are already the
    end of the new one. -/
def replace (text old new : String) : String :=
  if old.isEmpty || old == new then text
  else
    String.ofList (replaceFrom old.toList new.toList (Text.beforeEnd? old.toList new.toList) []
      text.toList)

/-- The address of a repository in a form that can be cloned over HTTPS. -/
def repositoryUrl (raw : String) : String :=
  let cs := Text.trim Text.isBlank raw.toList
  let after (start : String) : Option (List Char) := Text.afterStart? start.toList cs
  let https (rest : List Char) : String := "https://" ++ String.ofList rest
  let github (rest : List Char) : String := "https://github.com/" ++ String.ofList rest ++ ".git"
  let slashed (rest : List Char) : String := https (Text.replaceFirst [':'] ['/'] rest)
  match after "github:", after "git@", after "git+ssh://git@", after "git+", after "git://" with
  | some rest, _, _, _, _ => github rest
  | none, some rest, _, _, _ => slashed rest
  | none, none, some rest, _, _ => slashed rest
  | none, none, none, some rest, _ => String.ofList rest
  | none, none, none, none, some rest => https rest
  | none, none, none, none, none =>
    if !cs.contains ':' && cs.count '/' = 1 then github cs else String.ofList cs

/-- The last segment of a repository's address, without `.git`. -/
def ofRepositoryUrl (url : String) : String :=
  let cs := (url.toList.reverse.dropWhile (· == '/')).reverse
  let base := ((Text.splitAt (fun c => c == '/' || c == ':') cs).getLast?).getD cs
  String.ofList ((Text.beforeEnd? ".git".toList base).getD base)

end RouterShift.PackageName
