import Runbook.Catalog
import Runbook.Json.Format

/-!
The values behind the names that steps refer to: credentials, groups of devices, templates of
commands and variables. A resolver answers for each name with its value or with nothing; an
inventory is a resolver that can be written down.
-/
namespace Runbook

structure Credential where
  username : String
  password : String
  deviceType : String
  port : UInt16 := 22
  secret : Option String := none
  connTimeout : Option UInt32 := none
  delayFactor : Option Binary64 := none
deriving DecidableEq, Repr

namespace Credential

def record : Json.Record Credential where
  title := "struct Credential"
  blank := { username := "", password := "", deviceType := "" }
  fields := [
    .needed "username" .text username fun x c => { c with username := x },
    .needed "password" .text password fun x c => { c with password := x },
    .needed "deviceType" .text deviceType fun x c => { c with deviceType := x },
    .lenient "port" .uint16 port fun x c => { c with port := x },
    .option "secret" .text secret fun x c => { c with secret := x },
    .option "connTimeout" .uint32 connTimeout fun x c => { c with connTimeout := x },
    .option "globalDelayFactor" .binary64 delayFactor fun x c => { c with delayFactor := x }]

def format : Json.Format Credential := record.format

end Credential

structure DeviceGroup where
  hosts : List String
deriving DecidableEq, Repr

namespace DeviceGroup

def record : Json.Record DeviceGroup where
  title := "struct DeviceGroup"
  blank := ⟨[]⟩
  fields := [.needed "hosts" Json.Format.text.list hosts fun x g => { g with hosts := x }]

def format : Json.Format DeviceGroup := record.format

end DeviceGroup

def Catalog.format {α : Type} (f : Json.Format α) : Json.Format (Catalog α) where
  write c := .object (c.entries.map fun e => (e.1, f.write e.2))
  read setting s := Catalog.ofList <$> Json.Decoder.members f.read setting s

structure Inventory where
  credentials : Catalog Credential := .empty
  deviceGroups : Catalog DeviceGroup := .empty
  templates : Catalog String := .empty
  parameters : Catalog String := .empty
deriving DecidableEq, Repr

namespace Inventory

def record : Json.Record Inventory where
  title := "struct ResolvedConfig"
  blank := {}
  fields := [
    .lenient "credentials" (Catalog.format Credential.format) credentials
      fun x i => { i with credentials := x },
    .lenient "deviceGroups" (Catalog.format DeviceGroup.format) deviceGroups
      fun x i => { i with deviceGroups := x },
    .lenient "templates" (Catalog.format .text) templates fun x i => { i with templates := x },
    .lenient "variables" (Catalog.format .text) parameters
      fun x i => { i with parameters := x }]

def format : Json.Format Inventory := record.format

end Inventory

structure Resolver where
  credential : String → Option Credential
  deviceGroup : String → Option DeviceGroup
  template : String → Option String
  parameter : String → Option String

def Inventory.resolver (i : Inventory) : Resolver where
  credential := i.credentials.get?
  deviceGroup := i.deviceGroups.get?
  template := i.templates.get?
  parameter := i.parameters.get?

inductive ResourceKind where
  | credential
  | deviceGroup
  | template
  | parameter
deriving DecidableEq, Repr

namespace ResourceKind

def all : List ResourceKind := [credential, deviceGroup, template, parameter]

def name : ResourceKind → String
  | credential => "credential"
  | deviceGroup => "device_group"
  | template => "template"
  | parameter => "variable"

def format : Json.Format ResourceKind := .names all name

end ResourceKind

structure Reference where
  kind : ResourceKind
  id : String
deriving DecidableEq, Repr

namespace Reference

def placeholder (r : Reference) : String := "<<unresolved:" ++ r.kind.name ++ ":" ++ r.id ++ ">>"

def isResolved (resolver : Resolver) : Reference → Bool
  | ⟨.credential, id⟩ => (resolver.credential id).isSome
  | ⟨.deviceGroup, id⟩ => (resolver.deviceGroup id).isSome
  | ⟨.template, id⟩ => (resolver.template id).isSome
  | ⟨.parameter, id⟩ => (resolver.parameter id).isSome

end Reference

end Runbook
