import JsonnetTree.Failure
import JsonnetTree.Import
import JsonnetTree.Symbol

/-!
# Reports

The symbols and the imports of a tree, and every failure, are reported as JSON objects. A report
starts with its status and the version of its form.
-/

namespace JsonnetTree

open Json

/-- A report with the given status and members. -/
def report (status : String) (members : List (String × Value)) : Value :=
  .ofMembers (("status", .ofString status) :: ("schema_version", .ofString "1") :: members)

/-- The report of one symbol. -/
def Symbol.report (s : Symbol) : Value :=
  .ofMembers [("identifier", .ofString s.identifier), ("kind", .ofString s.kind.tag),
    ("context", .ofString s.path), ("location", Location.codec.write s.location)]

/-- The report of one import. -/
def ImportRef.report (i : ImportRef) : Value :=
  .ofMembers [("kind", .ofString i.kind.keyword), ("path", .ofString i.path),
    ("location", Location.codec.write i.location)]

/-- The report of a list of symbols, in their order. -/
def symbolReport (symbols : List Symbol) : Value :=
  report "ok" [("symbols", .ofList (symbols.map Symbol.report))]

/-- The report of a list of imports, in their order. -/
def importReport (imports : List ImportRef) : Value :=
  report "ok" [("imports", .ofList (imports.map ImportRef.report))]

/-- The report of a failure. What is not known is left out. -/
def Failure.report (f : Failure) : Value :=
  JsonnetTree.report "error" [("error", .ofMembers (
    [("code", .ofNat f.exitCode), ("message", .ofString f.message)] ++
    f.phase?.toList.map (fun phase => ("phase", .ofString phase)) ++
    f.location?.toList.map (fun location => ("location", Location.codec.write location))))]

/-- The text of the report of a failure. -/
def Failure.text (f : Failure) : String :=
  String.ofList (f.report.pretty ++ ['\n'])

end JsonnetTree
