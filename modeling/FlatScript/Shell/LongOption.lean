import FlatScript.Shell.Octets

namespace FlatScript.Shell

def longOption (options : List (String × α)) (text : Octets) : Except String α :=
  let name := text.takeWhile (· != '=')
  let shown (name : String) : String := "'--" ++ name ++ "'"
  let found : List (String × α) :=
    match options.find? fun (long, _) => long.toList = name with
    | some option => [option]
    | none => options.filter fun (long, _) => name.isPrefixOf long.toList
  match found with
  | [] => .error ("unrecognized option " ++ shown (.ofList text))
  | [(long, value)] =>
    if name.length = text.length then .ok value
    else .error ("option " ++ shown long ++ " doesn't allow an argument")
  | options =>
    .error ("option " ++ shown (.ofList name) ++ " is ambiguous; possibilities:" ++
      String.join (options.map fun (long, _) => " " ++ shown long))

end FlatScript.Shell
