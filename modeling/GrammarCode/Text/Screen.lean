import GrammarCode.Text.Cluster
import GrammarCode.Text.Style

/-!
# Screens

Where a text can be cut, how wide it is and how a colour is switched on is not decided by those who
lay text out: they ask the screen. A screen is a record of functions only. What has to be known of
them is said where it is used; the standard screen goes by Unicode and by ANSI sequences.
-/

namespace GrammarCode.Text

/-- What is asked of a screen. -/
structure Screen where
  /-- The user-perceived characters of a text. -/
  clusters : Bytes → List Bytes
  /-- The columns that a text takes. -/
  columns : Bytes → Nat
  /-- A text with display attributes, in colour or not. -/
  paint : (colour : Bool) → List Attribute → Bytes → Bytes

/-- Clusters and columns by Unicode, attributes as ANSI sequences. -/
def Screen.standard : Screen where
  clusters := Text.clusters
  columns := Text.columns
  paint := Style.paint

end GrammarCode.Text
