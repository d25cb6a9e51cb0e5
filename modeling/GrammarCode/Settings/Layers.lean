import GrammarCode.Settings.Value

/-!
# Layers of settings

The same setting can be given in four places. What the command line gives counts before the
environment, the environment before the configuration file, and the file before the value that
is built in.
-/

namespace GrammarCode.Settings

/-- Where settings come from, the most important first. -/
structure Layers where
  given : Config := []
  environment : Config := []
  config : Config := []
  builtIn : Config := []

namespace Layers

/-- The value of a setting: that of the first layer that has one. -/
def get (l : Layers) (name : Bytes) : Value :=
  let layers := [l.given, l.environment, l.config, l.builtIn]
  (layers.findSome? fun c => c.get? name).getD .null

/-- A setting as an integer. -/
def int (l : Layers) (name : Bytes) : Int := (l.get name).toInt

/-- A setting as a truth value. -/
def truth (l : Layers) (name : Bytes) : Bool := (l.get name).toBool

/-- A setting as a text. -/
def text (l : Layers) (name : Bytes) : Bytes := (l.get name).toText

end Layers

/-- The variable of the environment that a setting is read from. -/
def environmentName (name : Bytes) : Bytes :=
  ("PEGC_" : Bytes) ++ (Bytes.upperAscii name).map fun b => if b = 0x2D then 0x5F else b

end GrammarCode.Settings
