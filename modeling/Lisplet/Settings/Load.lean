import Lisplet.Files
import Lisplet.Settings

namespace Lisplet

inductive SettingsError
  | reading (path : String) (fault : ReadFault)
  | parsing (path : String) (causes : List String)
  deriving DecidableEq

namespace SettingsError

def message : SettingsError → String
  | reading path _ => "reading config " ++ path
  | parsing path _ => "parsing config " ++ path

def causes : SettingsError → List String
  | reading _ fault => [fault.message]
  | parsing _ causes => causes

def report (e : SettingsError) : String := ": ".intercalate (e.message :: e.causes)

end SettingsError

namespace Settings

/-- The file of settings for every project. The configuration directory may be named, even by an
empty name; otherwise it lies in the home directory. -/
def globalPath? (s : Surroundings) : Option String :=
  (s.configHome.orElse fun _ => s.home.map (Path.join · ".config")).map fun directory =>
    Path.join (Path.join directory "lispc") "config.toml"

def projectPath (root : String) : String := Path.join (Path.join root ".lispc") "config.toml"

def layerPaths (s : Surroundings) (root : String) : List String :=
  (globalPath? s).toList ++ [projectPath root]

def load (s : Surroundings) (root : String) : Settings :=
  ofLayers ((layerPaths s root).map fun path => (s.read path).toOption)

def loadFrom (s : Surroundings) (path : String) : Except SettingsError Settings :=
  match s.read path with
  | .error fault => .error (.reading path fault)
  | .ok source =>
    match ofDocument? source with
    | some settings => .ok settings
    | none => .error (.parsing path (s.causes source))

end Settings

end Lisplet
