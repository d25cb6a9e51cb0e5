import GrammarCode.Cli.Input
import GrammarCode.Cli.Libraries
import GrammarCode.Program.Serial

/-!
# Showing a program

A program is shown as a listing, with a line of statistics if asked for, or as JSON. In colour
the fields of JSON objects are in alphabetical order.
-/

namespace GrammarCode.Cli

open Settings (Layers)

/-- The line of statistics. -/
def statsLine (s : Stats) : Bytes :=
  Bytes.cat
    [Bytes.decimalNat s.instructions, " instructions, ",
     Bytes.decimalNat s.matchings, " matches, ",
     Bytes.decimalNat s.packings, " packs, ",
     Bytes.decimalNat s.branchings, " branches, ",
     Bytes.decimalNat s.addresses, " addresses\n"]

/-- The listing of a program. -/
def showListing (screen : Text.Screen) (colour stats : Bool) (p : Program) :
    Except CommandError Bytes :=
  match p.listing with
  | .error e => .error (.listing e)
  | .ok lines =>
    .ok (Listing.print colour lines screen ++ if stats then statsLine p.stats else [])

/-- How JSON looks in colour. -/
def colouredLook (screen : Text.Screen) : Json.Look where
  name := fun b => screen.paint true [.blue, .bold] (0x22 :: b ++ [0x22])
  string := fun b => screen.paint true [.green, .bold] (Json.stringText false b)
  number := fun b => screen.paint true [.cyan, .bold] b

/-- The JSON text of a program. -/
def showJson (screen : Text.Screen) (colour : Bool) (p : Program) : Bytes :=
  (if colour then p.toJson.sorted.indented (colouredLook screen) 0 else p.marshalIndented)
    ++ [0x0A]

variable {m : Type → Type} [Monad m]

/-- Compiles the grammar that a command is given and shows the program. -/
def showInput (host : Host m) (reader : Yaml.Reader) (settings : Layers) (arguments : List Bytes)
    (view : Program → Except CommandError Bytes) : m Report := do
  let c ← compileInput host reader settings arguments
  match c.result.bind view with
  | .ok out => return { out, events := c.events }
  | .error e => return { events := c.events, error := some e }

end GrammarCode.Cli
