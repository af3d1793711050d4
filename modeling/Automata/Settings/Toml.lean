import Automata.Settings.Basic
import Automata.Toml.Text

namespace Automata

open Toml

structure PartialSettings where
  maxStates : Option UInt64
  progressInterval : Option UInt64

/-- Why settings cannot be had from a file or a text. -/
inductive SettingsError where
  | unreadable (path : String)
  | invalid
deriving DecidableEq

def SettingsError.message : SettingsError → String
  | unreadable path => "Failed to read config file " ++ path
  | invalid => "Invalid determinize config"

def PartialSettings.fields : Fields (Option UInt64 × Option UInt64 × Unit) :=
  .cons "max_states" (.option UInt64) (.single "progress_interval" (.option UInt64))

namespace Settings

def fields : Fields (Option UInt64 × UInt64 × Unit) :=
  .cons "max_states" (.option UInt64) (.single "progress_interval" (.one UInt64))

def ofPartial (p : PartialSettings) : Settings where
  maxStates := p.maxStates.or ({} : Settings).maxStates
  progressInterval := p.progressInterval.getD ({} : Settings).progressInterval

def write? (c : Codec) (s : Settings) : Option String :=
  c.write (.record fields) (s.maxStates, s.progressInterval, ())

def read (c : Codec) (text : String) : Except SettingsError Settings :=
  match c.read (.record PartialSettings.fields) text with
  | some (maxStates, progressInterval, ()) => .ok (ofPartial ⟨maxStates, progressInterval⟩)
  | none => .error .invalid

theorem isSome_write? (s : Settings) : (s.write? codec).isSome := by
  obtain ⟨maxStates, progressInterval⟩ := s
  cases maxStates <;> rfl

def toToml (s : Settings) : String :=
  (s.write? codec).get s.isSome_write?

def ofToml (text : String) : Except SettingsError Settings :=
  read codec text

/-- The settings of a file, given by its path and its text, if it can be read. Without a file
they are the default ones. -/
def ofFile : Option (String × Option String) → Except SettingsError Settings
  | none => .ok {}
  | some (path, none) => .error (.unreadable path)
  | some (_, some text) => ofToml text

end Settings

end Automata
