import HexConfig.Layout
import HexConfig.Reader

/-!
# Conversion

From a source text to the document it means, and from there to JSON text. Nothing is printed unless
the whole text is read.
-/

namespace HexConfig

/-- A source text read from its start under the limits of the settings. -/
def readSource (settings : Settings) (source : String) : Reading :=
  (Reader.ofText source settings.toLimits).read.1

/-- The document a source text means. -/
def compile (settings : Settings) (source : String) : Except Diagnostic Document :=
  (readSource settings source).result

/-- The JSON text of what was read. -/
def Reading.print (r : Reading) (q : Quoting) : Except Diagnostic String :=
  r.result.map (Document.print q)

/-- How the settings have strings printed. -/
def Settings.quoting (settings : Settings) : Quoting :=
  if settings.escapeStrings then .encoded else .verbatim

/-- The JSON text of what a source text means. -/
def convert (settings : Settings) (source : String) : Except Diagnostic String :=
  (readSource settings source).print settings.quoting

end HexConfig
