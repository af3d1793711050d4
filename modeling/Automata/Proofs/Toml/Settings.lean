import Automata.Proofs.Toml.Text
import Automata.Settings.Toml

namespace Automata.Settings

open Toml

section Laws

variable {c : Codec} (laws : c.OptionalLaws)
include laws

/-- The interval is written as a number and read as one that may be missing. -/
theorem carries_interval (interval : UInt64) :
    c.Carries (.record (.single "progress_interval" (.one UInt64))) (interval, ())
      (.record (.single "progress_interval" (.option UInt64))) (some interval, ()) :=
  laws.number_as_option (by decide) rfl

/-- The settings are carried whole, the absent limit as an absent field. -/
theorem carries_fields (s : Settings) :
    c.Carries (.record fields) (s.maxStates, s.progressInterval, ())
      (.record PartialSettings.fields) (s.maxStates, some s.progressInterval, ()) := by
  obtain ⟨maxStates, interval⟩ := s
  have hinterval := carries_interval laws interval
  cases maxStates with
  | none =>
    -- The text has no line for the limit, so none is read.
    have hother : "max_states" ∉ (Fields.single "progress_interval" (.one UInt64)).names := by decide
    obtain ⟨text, hwrite, hread⟩ := laws.none_read (α := UInt64) (by decide) hother hinterval
    exact ⟨text, (laws.none_written "max_states" UInt64 _ _).trans hwrite, hread⟩
  | some max => exact laws.field (by decide) (by decide) (laws.number_option (by decide) rfl) hinterval

theorem write?_unlimited (interval : UInt64) :
    write? c ⟨none, interval⟩ = some ("progress_interval = " ++ toString interval.toNat ++ "\n") :=
  (laws.none_written "max_states" UInt64 _ _).trans (laws.number_written (by decide) rfl)

end Laws

/-- The default limit is none, and what is there is not replaced by a default. -/
theorem ofPartial_eq (s : Settings) : ofPartial ⟨s.maxStates, some s.progressInterval⟩ = s := by
  obtain ⟨maxStates, interval⟩ := s
  cases maxStates <;> rfl

/-- Settings are read as they were written, with or without a limit. -/
theorem toml_round_trip (c : Codec) (laws : c.OptionalLaws) (s : Settings) :
    ∃ text, s.write? c = some text ∧ read c text = .ok s ∧
      (s.maxStates = none →
        text = "progress_interval = " ++ toString s.progressInterval.toNat ++ "\n") := by
  obtain ⟨text, hwrite, hread⟩ := carries_fields laws s
  refine ⟨text, hwrite, ?_, ?_⟩
  · rw [read, hread]
    exact congrArg Except.ok s.ofPartial_eq
  · intro hnone
    obtain ⟨_, interval⟩ := s
    obtain rfl : _ = none := hnone
    exact Option.some.inj (hwrite.symm.trans (write?_unlimited laws interval))

/-- Without a limit and without progress, and with the largest limit. -/
theorem toml_round_trip_extremes : codec.OptionalLaws ∧
    (∃ text, (⟨none, 0⟩ : Settings).write? codec = some text ∧ read codec text = .ok ⟨none, 0⟩ ∧
      text = "progress_interval = 0\n") ∧
    ∃ text, (⟨some 0xffffffffffffffff, 1⟩ : Settings).write? codec = some text ∧
      read codec text = .ok ⟨some 0xffffffffffffffff, 1⟩ := by
  obtain ⟨text, hwrite, hread, htext⟩ := toml_round_trip codec codec_optionalLaws ⟨none, 0⟩
  obtain ⟨limited, hwrites, hreads, -⟩ :=
    toml_round_trip codec codec_optionalLaws ⟨some 0xffffffffffffffff, 1⟩
  exact ⟨codec_optionalLaws, ⟨text, hwrite, hread, htext rfl⟩, limited, hwrites, hreads⟩

end Automata.Settings
