import Automata.Text.Outline

namespace Automata

structure Settings where
  /-- How many states the result may have; without a number it may have any. -/
  maxStates : Option UInt64 := none
  /-- After how many new states progress is reported; zero means never. -/
  progressInterval : UInt64 := 1000
deriving DecidableEq

def Settings.outline (s : Settings) : Outline :=
  .record "DeterminizeConfig" [
    ("max_states", .option (s.maxStates.map .of)),
    ("progress_interval", .of s.progressInterval)]

end Automata
