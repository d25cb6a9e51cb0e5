import GrammarCode.Glob.Search
import GrammarCode.Grammar.Decode
import GrammarCode.Text.Screen

/-!
# What a command leaves to libraries

A command does not decide itself how a text looks on a screen, which files a pattern stands for, how
a document is read or which of several workers is done first. It asks a record of libraries, which
holds functions only; what has to be known of them is said where it is used.
-/

namespace GrammarCode.Cli

/-- The libraries that commands are built on. -/
structure Libraries (m : Type → Type) where
  /-- How texts are shown. -/
  screen : Text.Screen
  /-- Which files patterns stand for. -/
  finder : Glob.Finder m
  /-- How documents are read. -/
  reader : Yaml.Reader
  /-- The order in which so many workers finish what they are given. -/
  order : (jobs : Nat) → List (Bytes × Nat) → List (Bytes × Nat)

/-- The standard libraries; tasks are finished as they come. -/
def Libraries.standard {m : Type → Type} [Monad m] (host : Host m) : Libraries m where
  screen := .standard
  finder := .standard host
  reader := Yaml.parse
  order := fun _ tasks => tasks

end GrammarCode.Cli
