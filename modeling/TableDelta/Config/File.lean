import TableDelta.Config.Basic
import TableDelta.Toml.Reader
/-!
# Configuration files

A configuration is kept as a TOML document with a table `grammar`. Reading it refuses
a grammar that is not valid. Writing puts the preset and the given separators on a line
each; the form of string is chosen so that any character can be written.
-/
namespace TableDelta

namespace GrammarSettings

def separatorOfToml? : Option Toml → Option (Option Char)
  | none => some none
  | some toml => toml.char?.map some

def presetOfToml? : Option Toml → Option Preset
  | none => some .pipe
  | some toml => toml.variant?.bind Preset.ofName?

/-- Reads grammar settings, in which everything may be absent. -/
def ofToml? (toml : Toml) : Option GrammarSettings := do
  match ← toml.slots? ["preset", "clause_separator", "option_separator", "value_separator"] with
  | [preset, clause, option, value] =>
    return ⟨← presetOfToml? preset, ← separatorOfToml? clause, ← separatorOfToml? option,
      ← separatorOfToml? value⟩
  | _ => none

end GrammarSettings

/-- How a separator is written. Quotes and backslashes stand in a literal string, a line
feed in a string over several lines, and control characters are escaped. -/
def Toml.writeChar (c : Char) : List Char :=
  if c = '"' || c = '\\' then ['\'', c, '\'']
  else if c = '\n' then ['"', '"', '"', '\n', '\n', '"', '"', '"']
  else '"' :: (
    if c = '\x08' then ['\\', 'b']
    else if c = '\t' then ['\\', 't']
    else if c = '\x0c' then ['\\', 'f']
    else if c = '\r' then ['\\', 'r']
    else if Nat.blt c.toNat 0x20 || c = '\x7f' then
      ['\\', 'u', '0', '0', Text.upperHexDigit (c.toNat / 16), Text.upperHexDigit (c.toNat % 16)]
    else [c]) ++ ['"']

/-- The line that gives a value to a key. -/
def Toml.writeLine (key : String) (value : List Char) : List Char :=
  key.toList ++ ' ' :: '=' :: ' ' :: value ++ ['\n']

namespace Config

/-- Reads a configuration, without checking its grammar. -/
def ofToml? (toml : Toml) : Option Config := do
  match ← toml.slots? ["grammar"] with
  | [some grammar] => return ⟨← GrammarSettings.ofToml? grammar⟩
  | [none] => return default
  | _ => none

/-- The configuration that a text holds, if its grammar is valid. -/
def ofText (text : String) : Except ConfigError Config := do
  let some config := (Toml.ofText? text).bind ofToml? | throw .malformed
  let _ ← config.grammar.grammar
  return config

/-- The configuration that a file holds; none stands for a file that cannot be read. -/
def ofFile (contents : Option ByteArray) : Except ConfigError Config := do
  let some text := contents.bind String.fromUTF8? | throw .inaccessible
  ofText text

/-- The lines of the separators that are given. -/
def writeSeparator (key : String) (separator : Option Char) : List Char :=
  separator.toList.flatMap fun c => Toml.writeLine key (Toml.writeChar c)

/-- The text in which a configuration is kept. -/
def text (config : Config) : String :=
  String.ofList ("[grammar]\n".toList ++
    Toml.writeLine "preset" ('"' :: config.grammar.preset.name.toList ++ ['"']) ++
    writeSeparator "clause_separator" config.grammar.clauseSeparator ++
    writeSeparator "option_separator" config.grammar.optionSeparator ++
    writeSeparator "value_separator" config.grammar.valueSeparator)

end Config

end TableDelta
