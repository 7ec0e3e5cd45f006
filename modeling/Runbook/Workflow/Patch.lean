import Runbook.Workflow.Graph

/-!
Patches of a node's settings. A patch is an object whose members replace the members of the same
name in the settings as they are written. It may not change the kind of the node, the merged
members must read back as settings, and every name in it must be a field of the kind. A name
whose field was cleared does not read back, so null and the empty list pass under any name.
-/
namespace Runbook

inductive PatchError where
  | notObject
  | changesKind (kind : Kind)
  | unreadable (fault : Json.Fault)
  | unknownName (name : String) (kind : Kind)
deriving DecidableEq, Repr

def PatchError.message : PatchError → String
  | notObject => "patch must be a JSON object"
  | changesKind kind => "cannot change kind of a " ++ kind.name ++ " node"
  | unreadable fault => fault.message
  | unknownName name kind => "unknown key '" ++ name ++ "' for a " ++ kind.name ++ " node"

namespace Settings

def keepsKind (kind : Kind) (patch : List (String × Json.Value)) : Bool :=
  match Json.Value.member? "kind" patch with
  | none => true
  | some (.text name) => name = kind.name
  | some _ => false

/-- Whether a member of a patch was taken up by the settings it led to, or only clears. -/
def takesUp (settings : Settings) (m : String × Json.Value) : Bool :=
  (settings.members.any fun k => k.1 = m.1) || m.2.isNull || m.2.isEmptyArray

def patched (settings : Settings) (patch : Json.Value) : Except PatchError Settings :=
  match patch with
  | .object members =>
    let patch := Json.Value.sortMembers members
    let kind := settings.step.kind
    if !keepsKind kind patch then .error (.changesKind kind)
    else
      match format.ofValue (.object (settings.members ++ patch)) with
      | .error fault => .error (.unreadable fault)
      | .ok merged =>
        match patch.find? fun m => !merged.takesUp m with
        | some m => .error (.unknownName m.1 kind)
        | none => .ok merged
  | _ => .error .notObject

end Settings

namespace Graph

def updateSettings (g : Graph) (id : NodeId) (patch : Json.Value) : Except EditError Graph :=
  match g.node? id with
  | none => .error (.notFound id)
  | some node =>
    match node.settings.patched patch with
    | .error error => .error (.invalidPatch id error.message)
    | .ok settings => .ok (g.changeNode id fun n => { n with settings := settings })

end Graph

end Runbook
